import Mathlib.Tactic.Linarith
import Telemetry.Proofs.Expression.Levels
import Telemetry.Proofs.Expression.Parsing

/-!
# How deeply expressions nest

Before a text is read it is looked through for open parentheses and for the run of minus signs that
goes on at each point. Parentheses are balanced in an expression, so that as many are counted as
enclose a part of it, and a path through the tree never leads into more calls than that. A run of
minus signs counts only until the next parenthesis opens, though, and below it a new one begins.
With room for `d` more levels a path meets at most `d` minus signs, then a parenthesis, and below it
what `d - 1` levels have room for, `d * (d + 1) / 2` minus signs in all. This is what the limit
comes to for the tree of whatever text is read, and there are texts that exhaust it. The texts whose
trees keep the limit itself are those with no more levels than it says.
-/

namespace Telemetry

namespace Expression

/-! ## Looking through a text -/

namespace Nesting

variable {n : Nesting} {c : Char} {w : List Char}

/-- What is counted once a further piece of text is looked through. -/
def after (n : Nesting) (s : List Char) : Nesting :=
  s.foldl step n

theorem after_append (n : Nesting) (s w : List Char) : n.after (s ++ w) = (n.after s).after w :=
  List.foldl_append

/-- The present nesting has been taken into account. -/
def Counted (n : Nesting) : Prop :=
  n.parens + n.minusRun ≤ n.deepest

theorem counted_step (n : Nesting) (c : Char) : (n.step c).Counted :=
  le_max_right _ _

theorem Counted.after (h : n.Counted) (s : List Char) : (n.after s).Counted := by
  induction s generalizing n with
  | nil => exact h
  | cons c s ih => exact ih (counted_step n c)

theorem deepest_le_after (n : Nesting) (s : List Char) : n.deepest ≤ (n.after s).deepest := by
  induction s generalizing n with
  | nil => exact le_rfl
  | cons c s ih => exact (le_max_left _ _).trans (ih (n.step c))

theorem step_of_isBlank (hc : isBlank c = true) :
    (n.step c).parens = n.parens ∧ (n.step c).minusRun = n.minusRun := by
  have hspace := isSpace_of_isBlank hc
  simp only [isBlank, Bool.or_eq_true, decide_eq_true_eq] at hc
  have hmarks : c ≠ '(' ∧ c ≠ ')' ∧ c ≠ '-' := by
    rcases hc with ((rfl | rfl) | rfl) | rfl <;> decide
  simp [step, hmarks, hspace]

theorem parens_after_of_forall (h : ∀ c ∈ w, c ≠ '(' ∧ c ≠ ')') :
    (n.after w).parens = n.parens := by
  induction w generalizing n with
  | nil => rfl
  | cons c w ih =>
    obtain ⟨hopen, hclose⟩ := h c List.mem_cons_self
    have hstep : (n.step c).parens = n.parens := by simp [step, hopen, hclose]
    exact (ih fun d hd => h d (List.mem_cons_of_mem _ hd)).trans hstep

end Nesting

end Expression

open Expression

/-! ## Parentheses -/

namespace Token

variable {t : Token} {w s : List Char} {ts us : List Token}

/-- The open parentheses behind a token, of `k` in front of it. -/
def parensBehind (k : Nat) : Token → Nat
  | leftParen => k + 1
  | rightParen => k - 1
  | _ => k

theorem ne_paren_of_isDigit {c : Char} (h : c.isDigit = true) : c ≠ '(' ∧ c ≠ ')' := by
  constructor <;> rintro rfl <;> exact absurd h (by decide)

theorem ne_paren_of_inName {c : Char} (h : inName c = true) : c ≠ '(' ∧ c ≠ ')' := by
  constructor <;> rintro rfl <;> exact absurd h (by decide)

theorem ne_paren_of_startsName {c : Char} (h : startsName c = true) : c ≠ '(' ∧ c ≠ ')' := by
  constructor <;> rintro rfl <;> exact absurd h (by decide)

/-- There are no parentheses within a number. -/
theorem ne_paren_of_number {l : DecimalLiteral} (h : l.Spelled w) :
    ∀ c ∈ w, c ≠ '(' ∧ c ≠ ')' := by
  obtain @⟨whole, fraction, m, x, k, hm, hx⟩ := h
  have hmantissa : ∀ c ∈ m, c ≠ '(' ∧ c ≠ ')' := by
    cases hm with
    | whole _ hds => exact fun c hc => ne_paren_of_isDigit (hds c hc)
    | pointed _ hds hfs =>
      intro c hc
      rcases List.mem_append.1 hc with hc | hc
      · exact ne_paren_of_isDigit (hds c hc)
      · rcases List.mem_cons.1 hc with rfl | hc
        · decide
        · exact ne_paren_of_isDigit (hfs c hc)
  have hexponent : ∀ c ∈ x, c ≠ '(' ∧ c ≠ ')' := by
    cases hx with
    | none => simp
    | @digits e negative sign ds he hsign _ hds =>
      have hsigns : ∀ c ∈ sign, c ≠ '(' ∧ c ≠ ')' := by
        simp only [DecimalLiteral.signs, List.mem_cons, Prod.mk.injEq, List.not_mem_nil,
          or_false] at hsign
        rcases hsign with ⟨-, rfl⟩ | ⟨-, rfl⟩ | ⟨-, rfl⟩ <;> simp
      intro c hc
      rcases List.mem_cons.1 hc with rfl | hc
      · rcases he with rfl | rfl <;> decide
      · rcases List.mem_append.1 hc with hc | hc
        · exact hsigns c hc
        · exact ne_paren_of_isDigit (hds c hc)
  intro c hc
  exact (List.mem_append.1 hc).elim (hmantissa c) (hexponent c)

theorem Spelled.parens_after (h : t.Spelled w) (n : Nesting) :
    (n.after w).parens = t.parensBehind n.parens := by
  cases h with
  | number h => exact Nesting.parens_after_of_forall (ne_paren_of_number h)
  | name hc hcs =>
    refine Nesting.parens_after_of_forall fun c hmem => ?_
    rcases List.mem_cons.1 hmem with rfl | hmem
    · exact ne_paren_of_startsName hc
    · exact ne_paren_of_inName (hcs c hmem)
  | mark h =>
    simp only [marks, List.mem_cons, Prod.mk.injEq, List.not_mem_nil, or_false] at h
    rcases h with ⟨rfl, rfl⟩ | ⟨rfl, rfl⟩ | ⟨rfl, rfl⟩ | ⟨rfl, rfl⟩ | ⟨rfl, rfl⟩ | ⟨rfl, rfl⟩ |
      ⟨rfl, rfl⟩ <;> rfl

/-- The parentheses that are counted in a text are those of its tokens. -/
theorem SpelledAll.parens_after (h : SpelledAll ts s) (n : Nesting) :
    (n.after s).parens = ts.foldl parensBehind n.parens := by
  induction h generalizing n with
  | nil => rfl
  | blank hc _ ih =>
    refine (ih (n.step _)).trans ?_
    rw [(Nesting.step_of_isBlank hc).1]
  | token ht _ ih => rw [Nesting.after_append, ih, ht.parens_after, List.foldl_cons]

/-- A text that two runs of tokens spell is one that the first spells, and one the second does. -/
theorem SpelledAll.split (h : SpelledAll (ts ++ us) s) :
    ∃ left right, s = left ++ right ∧ SpelledAll ts left ∧ SpelledAll us right := by
  generalize hall : ts ++ us = all at h
  induction h generalizing ts with
  | nil =>
    obtain ⟨rfl, rfl⟩ := List.append_eq_nil_iff.1 hall
    exact ⟨[], [], rfl, .nil, .nil⟩
  | blank hc _ ih =>
    obtain ⟨left, right, rfl, hleft, hright⟩ := ih hall
    exact ⟨_ :: left, right, rfl, .blank hc hleft, hright⟩
  | token ht h ih =>
    cases ts with
    | nil =>
      obtain rfl := hall
      exact ⟨[], _, rfl, .nil, .token ht h⟩
    | cons t ts =>
      obtain ⟨rfl, htail⟩ := List.cons.inj hall
      obtain ⟨left, right, rfl, hleft, hright⟩ := ih htail
      exact ⟨_, right, (List.append_assoc ..).symm, .token ht hleft, hright⟩

theorem SpelledAll.append (hs : SpelledAll ts s) (hw : SpelledAll us w) :
    SpelledAll (ts ++ us) (s ++ w) := by
  induction hs with
  | nil => exact hw
  | blank hc _ ih => exact .blank hc ih
  | token ht _ ih =>
    rw [List.append_assoc]
    exact .token ht ih

/-- A minus sign adds to the run, whatever blanks there are around it. -/
theorem SpelledAll.split_minus (h : SpelledAll (.minus :: ts) s) (n : Nesting) :
    ∃ left right, s = left ++ right ∧ SpelledAll ts right ∧
      (n.after left).parens = n.parens ∧ (n.after left).minusRun = n.minusRun + 1 := by
  generalize hall : .minus :: ts = all at h
  induction h generalizing n with
  | nil => cases hall
  | @blank c _ _ hc _ ih =>
    obtain ⟨hparens, hrun⟩ := Nesting.step_of_isBlank (n := n) hc
    obtain ⟨left, right, rfl, hright, hparens', hrun'⟩ := ih (n.step c) hall
    exact ⟨c :: left, right, rfl, hright, hparens'.trans hparens,
      hrun'.trans (congrArg (· + 1) hrun)⟩
  | token ht h =>
    obtain ⟨rfl, rfl⟩ := List.cons.inj hall
    cases ht with
    | mark hmark =>
      simp only [marks, List.mem_cons, Prod.mk.injEq, reduceCtorEq, and_true, and_false,
        List.not_mem_nil, or_false, false_or] at hmark
      subst hmark
      exact ⟨['-'], _, rfl, h, rfl, rfl⟩

end Token

namespace Expression

variable {p : Phrase} {ts : List Token}

theorem parensBehind_of_sum {t : Token} {op : Operator} (h : sumOperator t = some op) (k : Nat) :
    t.parensBehind k = k := by
  cases t <;> first | rfl | cases h

theorem parensBehind_of_product {t : Token} {op : Operator} (h : productOperator t = some op)
    (k : Nat) : t.parensBehind k = k := by
  cases t <;> first | rfl | cases h

/-- Behind a phrase as many parentheses are open as in front of it. -/
theorem Derives.balanced (h : Derives p ts) (k : Nat) : ts.foldl Token.parensBehind k = k := by
  induction h generalizing k with
  | term _ ih | factor _ ih | atom _ ih | single _ ih => exact ih k
  | sum _ ht _ ihl ihr =>
    rw [List.foldl_append, List.foldl_cons, ihl, parensBehind_of_sum ht, ihr]
  | product _ ht _ ihl ihr =>
    rw [List.foldl_append, List.foldl_cons, ihl, parensBehind_of_product ht, ihr]
  | negate _ ih => exact ih k
  | number x => rfl
  | label s => rfl
  | call f _ ih | parens _ ih =>
    simp only [List.foldl_cons, List.foldl_append, List.foldl_nil, Token.parensBehind, ih,
      Nat.add_sub_cancel]
  | further _ _ ihs ih =>
    rw [List.foldl_append, List.foldl_cons, ihs]
    exact ih k

end Expression

/-! ## Paths -/

namespace Formula

/-- Behind a run of minus signs, no path through the formula needs more than `d` levels have room
for. -/
def FitsIn (e : Formula) (run d : Nat) : Prop :=
  ∀ ⦃minus calls : Nat⦄, e.Path minus calls → 2 * (minus + run) ≤ d * (d + 1) ∧ calls ≤ d

section FitsIn

variable {e l r : Formula} {op : Operator} {f : Builtin} {args : List Formula} {run d : Nat}

theorem FitsIn.of_run (h : e.FitsIn run d) : e.FitsIn 0 d := by
  intro minus calls hpath
  obtain ⟨hminus, hcalls⟩ := h hpath
  exact ⟨by omega, hcalls⟩

theorem two_mul_le_room (h : run ≤ d) : 2 * run ≤ d * (d + 1) := by
  cases d with
  | zero => omega
  | succ d => nlinarith

theorem fitsIn_number (x : Float) (h : run ≤ d) : (number x).FitsIn run d := by
  rintro _ _ ⟨⟩
  exact ⟨by simpa using two_mul_le_room h, Nat.zero_le d⟩

theorem fitsIn_label (name : String) (h : run ≤ d) : (label name).FitsIn run d := by
  rintro _ _ ⟨⟩
  exact ⟨by simpa using two_mul_le_room h, Nat.zero_le d⟩

theorem FitsIn.negate (h : e.FitsIn (run + 1) d) : e.negate.FitsIn run d := by
  rintro _ calls ⟨⟩
  rename_i minus hpath
  obtain ⟨hminus, hcalls⟩ := h hpath
  exact ⟨by omega, hcalls⟩

theorem FitsIn.binary (hl : l.FitsIn 0 d) (hr : r.FitsIn 0 d) : (binary op l r).FitsIn 0 d := by
  intro minus calls hpath
  cases hpath with
  | left h => exact hl h
  | right h => exact hr h

/-- A parenthesis takes one level, and as long a run in front of it as there are levels. -/
theorem FitsIn.deeper (h : e.FitsIn 0 d) (hrun : run ≤ d + 1) : e.FitsIn run (d + 1) := by
  intro minus calls hpath
  obtain ⟨hminus, hcalls⟩ := h hpath
  exact ⟨by nlinarith, by omega⟩

theorem FitsIn.call (h : ∀ a ∈ args, a.FitsIn 0 d) (hrun : run ≤ d + 1) :
    (call f args).FitsIn run (d + 1) := by
  intro minus calls hpath
  cases hpath with
  | bare f => exact ⟨by simpa using two_mul_le_room hrun, by omega⟩
  | argument ha hpath =>
    obtain ⟨hminus, hcalls⟩ := h _ ha hpath
    exact ⟨by nlinarith, by omega⟩

end FitsIn

end Formula

namespace Expression

/-- What a phrase stands for has room in `d` levels, where it begins behind what was counted in
`n`. -/
def Nesting.HasRoom (n : Nesting) (d : Nat) : Phrase → Prop
  | .atom e | .factor e => e.FitsIn n.minusRun d
  | .term e | .expr e => e.FitsIn 0 d
  | .arguments es => ∀ e ∈ es, e.FitsIn 0 d

section HasRoom

variable {n : Nesting} {d : Nat} {s left right : List Char} {t : Token} {ts us : List Token}

theorem Nesting.run_le (hn : n.Counted) (h : (n.after s).deepest ≤ n.parens + d) :
    n.minusRun ≤ d := by
  have hmono := n.deepest_le_after s
  rw [Counted] at hn
  omega

theorem Nesting.deepest_after_left (h : (n.after (left ++ right)).deepest ≤ n.parens + d) :
    (n.after left).deepest ≤ n.parens + d := by
  rw [after_append] at h
  exact (deepest_le_after _ _).trans h

/-- On either side of a token that is no parenthesis there is as much room as for both sides. -/
theorem Nesting.sides (hn : n.Counted) (hs : Token.SpelledAll (ts ++ t :: us) s)
    (hts : ts.foldl Token.parensBehind n.parens = n.parens)
    (ht : t.parensBehind n.parens = n.parens) (hd : (n.after s).deepest ≤ n.parens + d) :
    (∃ left, Token.SpelledAll ts left ∧ (n.after left).deepest ≤ n.parens + d) ∧
      ∃ n' : Nesting, ∃ right, n'.Counted ∧ Token.SpelledAll us right ∧
        (n'.after right).deepest ≤ n'.parens + d := by
  rw [List.append_cons] at hs
  obtain ⟨front, right, rfl, hfront, hright⟩ := hs.split
  have hparens : (n.after front).parens = n.parens := by
    rw [hfront.parens_after, List.foldl_append, hts]
    exact ht
  have hdeepest := Nesting.deepest_after_left hd
  obtain ⟨left, mark, rfl, hleft, -⟩ := hfront.split
  refine ⟨⟨left, hleft, Nesting.deepest_after_left hdeepest⟩,
    n.after (left ++ mark), right, hn.after _, hright, ?_⟩
  rwa [hparens, ← after_append]

/-- Between parentheses there is one level less. -/
theorem Nesting.inside (hn : n.Counted)
    (hts : ts.foldl Token.parensBehind n.parens = n.parens + 1)
    (hs : Token.SpelledAll (ts ++ (us ++ [.rightParen])) s)
    (hd : (n.after s).deepest ≤ n.parens + d) :
    ∃ k, d = k + 1 ∧ ∃ n' : Nesting, ∃ inner, n'.Counted ∧ Token.SpelledAll us inner ∧
      (n'.after inner).deepest ≤ n'.parens + k := by
  obtain ⟨front, behind, rfl, hfront, hbehind⟩ := hs.split
  obtain ⟨inner, last, rfl, hinner, -⟩ := hbehind.split
  have hparens := (hfront.parens_after n).trans hts
  have hcounted := hn.after front
  have hopen := Nesting.deepest_after_left hd
  rw [← List.append_assoc] at hd
  have hdeepest := Nesting.deepest_after_left hd
  rw [after_append] at hdeepest
  obtain ⟨k, rfl⟩ : ∃ k, d = k + 1 := ⟨d - 1, by rw [Counted] at hcounted; omega⟩
  exact ⟨k, rfl, n.after front, inner, hcounted, hinner, by omega⟩

end HasRoom

/-- Where a text has been looked through without getting deeper than `d` levels, what it stands for
has room in them. -/
theorem Derives.hasRoom (h : Derives p ts) {s : List Char} (hs : Token.SpelledAll ts s)
    {n : Nesting} {d : Nat} (hn : n.Counted) (hd : (n.after s).deepest ≤ n.parens + d) :
    n.HasRoom d p := by
  induction h generalizing s n d with
  | term _ ih => exact ih hs hn hd
  | factor _ ih => exact (ih hs hn hd).of_run
  | atom _ ih => exact ih hs hn hd
  | number x => exact Formula.fitsIn_number x (Nesting.run_le hn hd)
  | label s => exact Formula.fitsIn_label _ (Nesting.run_le hn hd)
  | sum hl ht _ ihl ihr =>
    obtain ⟨⟨left, hleft, hdl⟩, n', right, hn', hright, hdr⟩ :=
      Nesting.sides hn hs (hl.balanced _) (parensBehind_of_sum ht _) hd
    exact .binary (ihl hleft hn hdl) (ihr hright hn' hdr)
  | product hl ht _ ihl ihr =>
    obtain ⟨⟨left, hleft, hdl⟩, n', right, hn', hright, hdr⟩ :=
      Nesting.sides hn hs (hl.balanced _) (parensBehind_of_product ht _) hd
    exact .binary (ihl hleft hn hdl) (ihr hright hn' hdr).of_run
  | @negate e ts _ ih =>
    obtain ⟨left, right, rfl, hright, hparens, hrun⟩ := hs.split_minus n
    have hd' : ((n.after left).after right).deepest ≤ (n.after left).parens + d := by
      rwa [hparens, ← Nesting.after_append]
    have hinner : e.FitsIn (n.after left).minusRun d := ih hright (hn.after left) hd'
    rw [hrun] at hinner
    exact hinner.negate
  | call f _ ih =>
    have hrun := Nesting.run_le hn hd
    have hopen : [.name f.name.toList, .leftParen].foldl Token.parensBehind n.parens =
      n.parens + 1 := rfl
    obtain ⟨k, rfl, n', inner, hn', hinner, hd'⟩ := Nesting.inside hn hopen hs hd
    exact .call (ih hinner hn' hd') hrun
  | parens _ ih =>
    have hrun := Nesting.run_le hn hd
    have hopen : [.leftParen].foldl Token.parensBehind n.parens = n.parens + 1 := rfl
    obtain ⟨k, rfl, n', inner, hn', hinner, hd'⟩ := Nesting.inside hn hopen hs hd
    exact .deeper (ih hinner hn' hd') hrun
  | single _ ih =>
    intro a ha
    obtain rfl := List.mem_singleton.1 ha
    exact ih hs hn hd
  | further hes _ ihs ih =>
    obtain ⟨⟨left, hleft, hdl⟩, n', right, hn', hright, hdr⟩ :=
      Nesting.sides hn hs (hes.balanced _) rfl hd
    intro a ha
    rcases List.mem_append.1 ha with ha | ha
    · exact ihs hleft hn hdl a ha
    · obtain rfl := List.mem_singleton.1 ha
      exact ih hright hn' hdr

theorem fitsIn_of_parse {s : List Char} {e : Formula} (h : Formula.parse s = .ok e) :
    e.FitsIn 0 maxNesting := by
  have hdepth : nestingDepth s ≤ 0 + maxNesting := by
    rw [Nat.zero_add]
    unfold Formula.parse at h
    split at h
    · cases h
    split at h
    · cases h
    next hle => exact Nat.not_lt.1 hle
  obtain ⟨ts, hspelled, hderives, -⟩ := derives_of_parse h
  exact hderives.hasRoom hspelled le_rfl hdepth

/-! ## Texts that exhaust the levels -/

/-- What is spelled by tokens that stand for a formula is read, if it does not nest too deeply. -/
theorem parse_of_derives {s : List Char} {ts : List Token} {e : Formula}
    (hdepth : nestingDepth s ≤ maxNesting) (hspelled : Token.SpelledAll ts s)
    (hderives : Derives (.expr e) ts) (habs : e.UnaryAbs) : Formula.parse s = .ok e := by
  have hend : Ends (.arguments []) [] := by rintro _ ⟨⟩
  have hls := map_token_lexemes hspelled hderives.separated
  have hread := (hderives.reads hls le_rfl hend.expr).expr hend
  rw [List.append_nil] at hread
  simp only [Formula.parse, hspelled.all_isSpace hderives.proper.1, Nat.not_lt.2 hdepth, hread,
    (Formula.wrongArity?_eq_none_iff e).2 habs, Bool.false_eq_true, if_false]

section Runs

variable {s : List Char} {ts : List Token} {e : Formula}

theorem spelledAll_run (h : Token.SpelledAll ts s) (k : Nat) :
    Token.SpelledAll (List.replicate k .minus ++ ts) (List.replicate k '-' ++ s) := by
  induction k with
  | zero => exact h
  | succ k ih =>
    have hminus : Token.Spelled .minus ['-'] := .mark (by simp [Token.marks])
    show Token.SpelledAll (.minus :: (List.replicate k .minus ++ ts))
      (['-'] ++ (List.replicate k '-' ++ s))
    exact .token hminus ih

theorem Derives.run (h : Derives (.factor e) ts) (k : Nat) :
    Derives (.factor (Formula.negate^[k] e)) (List.replicate k .minus ++ ts) := by
  induction k with
  | zero => exact h
  | succ k ih =>
    rw [Function.iterate_succ_apply']
    exact .negate ih

theorem path_run {minus calls : Nat} (h : e.Path minus calls) (k : Nat) :
    (Formula.negate^[k] e).Path (minus + k) calls := by
  induction k with
  | zero => exact h
  | succ k ih =>
    rw [Function.iterate_succ_apply']
    exact .negate ih

theorem unaryAbs_run (h : e.UnaryAbs) (k : Nat) : (Formula.negate^[k] e).UnaryAbs := by
  induction k with
  | zero => exact h
  | succ k ih =>
    rw [Function.iterate_succ_apply']
    exact ih

theorem Nesting.after_run (n : Nesting) (k : Nat) :
    (n.after (List.replicate k '-')).parens = n.parens ∧
      (n.after (List.replicate k '-')).deepest ≤ max n.deepest (n.parens + n.minusRun + k) := by
  induction k generalizing n with
  | zero => exact ⟨rfl, le_max_left _ _⟩
  | succ k ih =>
    obtain ⟨hparens, hdeepest⟩ := ih (n.step '-')
    have hstep : n.step '-' =
      ⟨n.parens, n.minusRun + 1, max n.deepest (n.parens + (n.minusRun + 1))⟩ := rfl
    refine ⟨hparens, hdeepest.trans ?_⟩
    rw [hstep]
    dsimp only
    omega

end Runs

/-- The longest run of minus signs that `d` levels have room for, and a call around what exhausts
one level less. -/
def exhausting : Nat → List Char
  | 0 => ['a']
  | d + 1 => List.replicate (d + 1) '-' ++ (['m', 'i', 'n', '('] ++ (exhausting d ++ [')']))

/-- The text reads as the formula, and leaves no room in `d` levels. -/
structure Exhausts (d : Nat) (s : List Char) (e : Formula) : Prop where
  derives : ∃ ts, Token.SpelledAll ts s ∧ Derives (.factor e) ts
  unaryAbs : e.UnaryAbs
  path : ∃ minus, 2 * minus = d * (d + 1) ∧ e.Path minus d
  deepest_le : ∀ n : Nesting, n.minusRun = 0 → n.Counted →
    (n.after s).deepest ≤ max n.deepest (n.parens + d)

theorem exhausts_zero : Exhausts 0 (exhausting 0) (.label "a") where
  derives := ⟨[.name ['a']], .token (.name (c := 'a') rfl (by simp)) .nil, .atom (.label ['a'])⟩
  unaryAbs := trivial
  path := ⟨0, rfl, .label "a"⟩
  deepest_le n _ hn := by
    have hstep : (n.after (exhausting 0)).deepest = max n.deepest n.parens := rfl
    rw [hstep]
    omega

theorem Exhausts.succ {d : Nat} {e : Formula} (h : Exhausts d (exhausting d) e) :
    Exhausts (d + 1) (exhausting (d + 1)) (Formula.negate^[d + 1] (.call .min [e])) where
  derives := by
    obtain ⟨ts, hspelled, hderives⟩ := h.derives
    have hname : Token.SpelledAll [.name ['m', 'i', 'n'], .leftParen] ['m', 'i', 'n', '('] :=
      .token (.name (c := 'm') rfl (List.all_eq_true.1 rfl)) <|
        .token (.mark (c := '(') (by simp [Token.marks])) .nil
    have hclose : Token.SpelledAll [.rightParen] [')'] :=
      .token (.mark (c := ')') (by simp [Token.marks])) .nil
    have hcall := hname.append (hspelled.append hclose)
    exact ⟨_, spelledAll_run hcall (d + 1),
      .run (.atom (.call .min (.single (.term (.factor hderives))))) (d + 1)⟩
  unaryAbs := by
    refine unaryAbs_run ?_ (d + 1)
    simp [Formula.UnaryAbs, Formula.UnaryAbsAll, h.unaryAbs]
  path := by
    obtain ⟨minus, hminus, hpath⟩ := h.path
    refine ⟨minus + (d + 1), by nlinarith, path_run (.argument ?_ hpath) (d + 1)⟩
    exact List.mem_singleton_self e
  deepest_le n hrun hn := by
    simp only [exhausting, Nesting.after_append]
    obtain ⟨hparens, hdeepest⟩ := n.after_run (d + 1)
    generalize n.after (List.replicate (d + 1) '-') = n₁ at hparens hdeepest
    have hcall : n₁.after ['m', 'i', 'n', '('] = ⟨n₁.parens + 1, 0,
        max (max (max (max n₁.deepest n₁.parens) n₁.parens) n₁.parens) (n₁.parens + 1)⟩ := rfl
    have hcounted : (n₁.after ['m', 'i', 'n', '(']).Counted := by
      rw [hcall, Nesting.Counted]
      exact le_max_right _ _
    have hinner := h.deepest_le _ (congrArg Nesting.minusRun hcall) hcounted
    have hcounted' := hcounted.after (exhausting d)
    have hclose (m : Nesting) : (m.after [')']).deepest = max m.deepest (m.parens - 1) := rfl
    rw [hclose]
    rw [Nesting.Counted] at hcounted'
    rw [hcall] at hinner hcounted' ⊢
    dsimp only at hinner
    omega

theorem exists_exhausts (d : Nat) : ∃ e, Exhausts d (exhausting d) e := by
  induction d with
  | zero => exact ⟨_, exhausts_zero⟩
  | succ d ih =>
    obtain ⟨e, h⟩ := ih
    exact ⟨_, h.succ⟩

theorem Exhausts.parse {d : Nat} {s : List Char} {e : Formula} (h : Exhausts d s e)
    (hd : d ≤ maxNesting) : Formula.parse s = .ok e := by
  obtain ⟨ts, hspelled, hderives⟩ := h.derives
  have hdepth : nestingDepth s ≤ max 0 (0 + d) := h.deepest_le ⟨0, 0, 0⟩ rfl le_rfl
  exact parse_of_derives (by omega) hspelled (.term (.factor hderives)) h.unaryAbs

theorem exists_parse_exhausting :
    ∃ s e minus, Formula.parse s = .ok e ∧ e.Path minus maxNesting ∧
      2 * minus = maxNesting * (maxNesting + 1) := by
  obtain ⟨e, h⟩ := exists_exhausts maxNesting
  obtain ⟨minus, hminus, hpath⟩ := h.path
  exact ⟨exhausting maxNesting, e, minus, h.parse le_rfl, hpath, hminus⟩

/-! ## Texts that keep the limit -/

theorem levels_of_parse {s : List Char} {e : Formula} (h : Formula.parse s = .ok e) :
    levels s = e.height := by
  obtain ⟨ts, hspelled, hderives, -⟩ := derives_of_parse h
  rw [levels, map_token_lexemes hspelled hderives.separated]
  exact hderives.deepest_eq

/-- No path through the tree of a text that is read passes through more unary minus signs and calls
than the limit says, just when the text has no more levels than that, minus signs in front of a
parenthesis counted for all that is in it. Whatever the text, there are no more calls on a path than
the limit says, and no more minus signs than if the runs in front of one parenthesis within another
are as long as can be, 2080 for a limit of 64. -/
theorem paths_of_parse {s : List Char} {e : Formula} (h : Formula.parse s = .ok e) :
    ((∀ minus calls, e.Path minus calls → minus + calls ≤ maxNesting) ↔
      levels s ≤ maxNesting) ∧
    ∀ minus calls, e.Path minus calls →
      calls ≤ maxNesting ∧ 2 * minus ≤ maxNesting * (maxNesting + 1) := by
  constructor
  · rw [levels_of_parse h]
    exact Formula.forall_path_le_iff
  · intro minus calls hpath
    obtain ⟨hminus, hcalls⟩ := fitsIn_of_parse h hpath
    exact ⟨hcalls, hminus⟩

/-- Two runs of 33 minus signs, the second of them in parentheses. -/
def twoRuns : List Char :=
  List.replicate 33 '-' ++ (['('] ++ ((List.replicate 33 '-' ++ ['a']) ++ [')']))

/-- The text has 66 levels, of which no more than 34 are counted before it is read. -/
theorem paths_of_parse_twoRuns :
    nestingDepth twoRuns = 34 ∧ levels twoRuns = 66 ∧
    ∃ e, Formula.parse twoRuns = .ok e ∧ e.Path 66 0 ∧
      (¬ ∀ minus calls, e.Path minus calls → minus + calls ≤ maxNesting) ∧
      0 ≤ maxNesting ∧ 2 * 66 ≤ maxNesting * (maxNesting + 1) := by
  have hdepth : nestingDepth twoRuns = 34 := by decide +kernel
  have ha : Token.SpelledAll [.name ['a']] ['a'] := .token (.name (c := 'a') rfl (by simp)) .nil
  have hopen : Token.SpelledAll [.leftParen] ['('] := .token (.mark (by simp [Token.marks])) .nil
  have hclose : Token.SpelledAll [.rightParen] [')'] := .token (.mark (by simp [Token.marks])) .nil
  have hspelled := spelledAll_run (hopen.append ((spelledAll_run ha 33).append hclose)) 33
  have hinner : Derives (.factor (Formula.negate^[33] (.label "a"))) _ :=
    .run (.atom (.label ['a'])) 33
  have hderives := Derives.run (.atom (.parens (.term (.factor hinner)))) 33
  have hpath : Formula.Path _ 66 0 := path_run (path_run (.label "a") 33) 33
  have habs := unaryAbs_run (unaryAbs_run (e := .label "a") trivial 33) 33
  have hparse : Formula.parse twoRuns = .ok _ :=
    parse_of_derives (hdepth.trans_le (by decide)) hspelled (.term (.factor hderives)) habs
  have hlevels : levels twoRuns = 66 := levels_of_parse hparse
  obtain ⟨hlimit, hbounds⟩ := paths_of_parse hparse
  obtain ⟨hcalls, hminus⟩ := hbounds _ _ hpath
  refine ⟨hdepth, hlevels, _, hparse, hpath, fun hall => ?_, hcalls, hminus⟩
  have hle := hlimit.1 hall
  rw [hlevels] at hle
  exact absurd hle (by decide)

end Expression

end Telemetry
