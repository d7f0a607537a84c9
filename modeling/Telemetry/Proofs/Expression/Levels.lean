import Telemetry.Proofs.Expression.Grammar

/-!
# Levels of an expression

A unary minus is a level around its operand, and a call one around its arguments. How many of them
lie around a point can be told from the tokens in front of it: what is pending where a parenthesis
opens remains so until the parenthesis closes. A minus sign behind an operand is no unary one, and
a parenthesis that belongs to no call is no level of its own. At the deepest point there are as many
levels as on the path through the tree that has most of them.
-/

namespace Telemetry

/-! ## Paths -/

namespace Formula

/-- Some path from the root of a formula to one of its leaves passes through so many unary minus
signs and so many calls. -/
inductive Path : Formula → Nat → Nat → Prop
  | number (x : Float) : Path (.number x) 0 0
  | label (name : String) : Path (.label name) 0 0
  | negate {e : Formula} {minus calls : Nat} (h : Path e minus calls) :
      Path (.negate e) (minus + 1) calls
  | left {op : Operator} {l r : Formula} {minus calls : Nat} (h : Path l minus calls) :
      Path (.binary op l r) minus calls
  | right {op : Operator} {l r : Formula} {minus calls : Nat} (h : Path r minus calls) :
      Path (.binary op l r) minus calls
  | bare (f : Builtin) : Path (.call f []) 0 1
  | argument {f : Builtin} {args : List Formula} {a : Formula} {minus calls : Nat} (ha : a ∈ args)
      (h : Path a minus calls) : Path (.call f args) minus (calls + 1)

mutual

/-- The unary minus signs and calls on the path that has most of them. -/
def height : Formula → Nat
  | number _ | label _ => 0
  | negate inner => inner.height + 1
  | binary _ left right => max left.height right.height
  | call _ args => heightAll args + 1

def heightAll : List Formula → Nat
  | [] => 0
  | e :: rest => max e.height (heightAll rest)

end

variable {e : Formula} {es : List Formula} {minus calls k : Nat}

theorem height_le_heightAll (h : e ∈ es) : e.height ≤ heightAll es := by
  induction es with
  | nil => cases h
  | cons e' es ih =>
    rcases List.mem_cons.1 h with rfl | h
    · exact le_max_left _ _
    · exact (ih h).trans (le_max_right _ _)

theorem heightAll_concat (es : List Formula) (e : Formula) :
    heightAll (es ++ [e]) = max (heightAll es) e.height := by
  induction es with
  | nil => exact (max_comm 0 _).symm
  | cons e' es ih => exact (congrArg (max e'.height) ih).trans (max_assoc _ _ _).symm

theorem Path.le_height (h : e.Path minus calls) : minus + calls ≤ e.height := by
  induction h with
  | number x => exact le_rfl
  | label name => exact le_rfl
  | negate _ ih =>
    rw [height]
    omega
  | left _ ih => exact ih.trans (le_max_left _ _)
  | right _ ih => exact ih.trans (le_max_right _ _)
  | bare f => exact le_rfl
  | argument ha _ ih => exact Nat.succ_le_succ (ih.trans (height_le_heightAll ha))

mutual

theorem exists_path (e : Formula) :
    ∃ minus calls, e.Path minus calls ∧ minus + calls = e.height := by
  cases e with
  | number x => exact ⟨0, 0, .number x, rfl⟩
  | label name => exact ⟨0, 0, .label name, rfl⟩
  | negate inner =>
    obtain ⟨minus, calls, hpath, heq⟩ := exists_path inner
    exact ⟨minus + 1, calls, .negate hpath, by rw [height, ← heq]; omega⟩
  | binary op left right =>
    rcases le_total right.height left.height with hle | hle
    · obtain ⟨minus, calls, hpath, heq⟩ := exists_path left
      exact ⟨minus, calls, .left hpath, by rw [height, heq, max_eq_left hle]⟩
    · obtain ⟨minus, calls, hpath, heq⟩ := exists_path right
      exact ⟨minus, calls, .right hpath, by rw [height, heq, max_eq_right hle]⟩
  | call f args =>
    rcases eq_nil_or_exists_path args with rfl | ⟨a, ha, minus, calls, hpath, heq⟩
    · exact ⟨0, 1, .bare f, rfl⟩
    · exact ⟨minus, calls + 1, .argument ha hpath, congrArg (· + 1) heq⟩

theorem eq_nil_or_exists_path (es : List Formula) :
    es = [] ∨ ∃ a ∈ es, ∃ minus calls, a.Path minus calls ∧ minus + calls = heightAll es := by
  cases es with
  | nil => exact .inl rfl
  | cons e rest =>
    right
    by_cases hle : heightAll rest ≤ e.height
    · obtain ⟨minus, calls, hpath, heq⟩ := exists_path e
      exact ⟨e, .head _, minus, calls, hpath, by rw [heightAll, heq, max_eq_left hle]⟩
    · rcases eq_nil_or_exists_path rest with rfl | ⟨a, ha, minus, calls, hpath, heq⟩
      · exact absurd e.height.zero_le hle
      · refine ⟨a, .tail _ ha, minus, calls, hpath, ?_⟩
        rw [heightAll, heq, max_eq_right (Nat.le_of_not_le hle)]

end

theorem forall_path_le_iff :
    (∀ minus calls, e.Path minus calls → minus + calls ≤ k) ↔ e.height ≤ k := by
  constructor
  · intro h
    obtain ⟨minus, calls, hpath, heq⟩ := e.exists_path
    exact heq ▸ h minus calls hpath
  · exact fun h minus calls hpath => hpath.le_height.trans h

end Formula

def Phrase.height : Phrase → Nat
  | .expr e | .term e | .factor e | .atom e => e.height
  | .arguments es => Formula.heightAll es

/-! ## Tokens -/

namespace Token

/-- Whether an operand ends with the token. -/
def endsOperand : Token → Bool
  | number _ | name _ | rightParen => true
  | _ => false

/-- Whether a parenthesis behind the token belongs to a call. -/
def isName : Token → Bool
  | name _ => true
  | _ => false

end Token

/-- The levels around a point between tokens. -/
structure Levels where
  /-- For each parenthesis that is open, the levels around what it holds; innermost first. -/
  bases : List Nat
  /-- The levels around whatever comes next. -/
  level : Nat
  last : Option Token
  /-- The most levels so far. -/
  deepest : Nat

namespace Levels

/-- In front of the first token. -/
def start : Levels := ⟨[], 0, none, 0⟩

/-- The levels around what the innermost open parenthesis holds. -/
def base (n : Levels) : Nat :=
  n.bases.headD 0

/-- An operand has just ended. -/
def ended (n : Levels) : Bool :=
  n.last.any Token.endsOperand

def move (n : Levels) (bases : List Nat) (level : Nat) (t : Token) : Levels :=
  ⟨bases, level, some t, max n.deepest level⟩

def step (n : Levels) (t : Token) : Levels :=
  match t with
  | .number _ | .name _ => n.move n.bases n.level t
  | .leftParen =>
    let inner := if n.last.any Token.isName then n.level + 1 else n.level
    n.move (inner :: n.bases) inner t
  | .rightParen => n.move n.bases.tail (n.bases.tail.headD 0) t
  | .minus => n.move n.bases (if n.ended then n.base else n.level + 1) t
  | _ => n.move n.bases n.base t

def after (n : Levels) (ts : List Token) : Levels :=
  ts.foldl step n

theorem after_append (n : Levels) (ts us : List Token) :
    n.after (ts ++ us) = (n.after ts).after us :=
  List.foldl_append

/-- The phrase may begin here. Nothing but an operand is ever behind a pending minus sign. -/
def ReadyFor (n : Levels) (p : Phrase) : Prop :=
  n.ended = false ∧
    match p with
    | .factor _ | .atom _ => n.base ≤ n.level
    | _ => n.level = n.base

/-- From the one point to the other, an operand of the given height has been passed. -/
structure Passed (n m : Levels) (height : Nat) : Prop where
  bases_eq : m.bases = n.bases
  ended : m.ended = true
  deepest_eq : m.deepest = max n.deepest (n.level + height)

variable {n m : Levels} {t : Token} {ts us : List Token} {j k b : Nat}

theorem passed_word (ht : n.step t = n.move n.bases n.level t) (hends : t.endsOperand = true) :
    n.Passed (n.after [t]) 0 := by
  show n.Passed (n.step t) 0
  rw [ht]
  exact ⟨rfl, hends, rfl⟩

/-- Another operand behind a token that parts it from the one before. -/
theorem Passed.next (h : n.Passed m j) (hlevel : n.level = n.base)
    (ht : m.step t = m.move m.bases m.base t) (hends : t.endsOperand = false)
    (hright : ∀ n' : Levels, n'.ended = false → n'.level = n'.base → n'.Passed (n'.after us) k) :
    n.Passed (m.after (t :: us)) (max j k) := by
  have hbase : m.base = n.level := by rw [base, h.bases_eq, hlevel, base]
  obtain ⟨hbases, hended, hdeepest⟩ := hright (m.move m.bases m.base t) hends rfl
  rw [← ht] at hbases hended hdeepest
  refine ⟨?_, hended, hdeepest.trans ?_⟩
  · rw [show (m.after (t :: us)).bases = ((m.step t).after us).bases from rfl, hbases, ht]
    exact h.bases_eq
  · simp only [ht, move, h.deepest_eq, hbase]
    omega

/-- An operand that what is between two parentheses makes up. -/
theorem Passed.close (h : m.Passed (m.after ts) k) (hbases : m.bases = b :: n.bases)
    (hdeepest : m.deepest = max n.deepest m.level) (hbase : n.base ≤ n.level)
    (hlevel : m.level = n.level + j) : n.Passed (m.after (ts ++ [.rightParen])) (k + j) := by
  rw [after_append]
  have htail : (m.after ts).bases.tail = n.bases := by rw [h.bases_eq, hbases, List.tail_cons]
  refine ⟨htail, rfl, ?_⟩
  show max (m.after ts).deepest ((m.after ts).bases.tail.headD 0) = _
  rw [htail, h.deepest_eq, hdeepest, hlevel, ← base]
  omega

end Levels

namespace Expression

open Levels

variable {p : Phrase} {t : Token} {ts : List Token} {op : Operator} {n : Levels}

theorem step_of_sum (ht : sumOperator t = some op) (hn : n.ended = true) :
    n.step t = n.move n.bases n.base t ∧ t.endsOperand = false := by
  cases t <;> simp_all [sumOperator, step, Token.endsOperand]

theorem step_of_product (ht : productOperator t = some op) :
    n.step t = n.move n.bases n.base t ∧ t.endsOperand = false := by
  cases t <;> simp_all [productOperator, step, Token.endsOperand]

/-- Within a phrase the levels are those around it and those on the paths through its tree. -/
theorem Derives.passed (h : Derives p ts) (hn : n.ReadyFor p) :
    n.Passed (n.after ts) p.height := by
  induction h generalizing n with
  | term _ ih => exact ih hn
  | factor _ ih => exact ih ⟨hn.1, hn.2.ge⟩
  | atom _ ih => exact ih hn
  | sum _ ht _ ihl ihr =>
    rw [after_append]
    have hleft := ihl hn
    obtain ⟨hstep, hends⟩ := step_of_sum ht hleft.ended
    exact hleft.next hn.2 hstep hends fun _ hended hlevel => ihr ⟨hended, hlevel⟩
  | product _ ht _ ihl ihr =>
    rw [after_append]
    obtain ⟨hstep, hends⟩ := step_of_product ht
    exact (ihl hn).next hn.2 hstep hends fun _ hended hlevel => ihr ⟨hended, hlevel.ge⟩
  | negate _ ih =>
    have hstep : n.step .minus = n.move n.bases (n.level + 1) .minus := by
      rw [step, hn.1]
      rfl
    obtain ⟨hbases, hended, hdeepest⟩ := ih (n := n.step .minus) <| by
      rw [hstep]
      exact ⟨rfl, hn.2.trans n.level.le_succ⟩
    refine ⟨hbases.trans (by rw [hstep]; rfl), hended, hdeepest.trans ?_⟩
    simp only [hstep, move, Phrase.height, Formula.height]
    omega
  | number x => exact passed_word rfl rfl
  | label s => exact passed_word rfl rfl
  | call f _ ih =>
    refine Passed.close (m := n.after [.name _, .leftParen]) (ih ⟨rfl, rfl⟩) rfl ?_ hn.2 rfl
    show max (max n.deepest n.level) (n.level + 1) = max n.deepest (n.level + 1)
    omega
  | parens _ ih =>
    have hname : n.last.any Token.isName = false := by
      have hended := hn.1
      rw [Levels.ended] at hended
      cases hlast : n.last with
      | none => rfl
      | some t => cases t <;> simp_all [Token.endsOperand, Token.isName]
    have hstep : n.step .leftParen = n.move (n.level :: n.bases) n.level .leftParen := by
      simp [step, hname]
    have hinner := ih (n := n.step .leftParen) <| by
      rw [hstep]
      exact ⟨rfl, rfl⟩
    refine hinner.close (j := 0) (b := n.level) ?_ ?_ hn.2 ?_ <;> rw [hstep] <;> rfl
  | single _ ih =>
    have hheight (e : Formula) : Formula.heightAll [e] = e.height := max_eq_left e.height.zero_le
    rw [Phrase.height, hheight]
    exact ih hn
  | further _ _ ihs ih =>
    rw [after_append, Phrase.height, Formula.heightAll_concat]
    exact (ihs hn).next hn.2 rfl rfl fun _ hended hlevel => ih ⟨hended, hlevel⟩

theorem Derives.deepest_eq {e : Formula} (h : Derives (.expr e) ts) :
    (Levels.start.after ts).deepest = e.height := by
  have hready : Levels.start.ReadyFor (.expr e) := ⟨rfl, rfl⟩
  rw [(h.passed hready).deepest_eq]
  show max 0 (0 + e.height) = e.height
  omega

/-- The levels around the deepest point of a text. -/
def levels (s : List Char) : Nat :=
  (Levels.start.after ((lexemes s).map (·.token))).deepest

end Expression

end Telemetry
