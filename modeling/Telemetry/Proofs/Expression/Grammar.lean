import Mathlib.Data.List.Chain
import Telemetry.Expression.Parser

/-!
# The grammar of expressions

A text is spelled by tokens, with blanks between them as one likes, and tokens are put together
into formulas. Nothing is said here about how a text is cut up or in which order choices are tried:
a digit may be a number of its own or part of a longer one, and any name may be a label. What makes
the reading of a text unique is that no two words, numbers or names, ever stand side by side in an
expression, `Derives.separated`.
-/

namespace Telemetry

/-! ## Spelling -/

/-- Digits with a point between them, if there is one. -/
inductive DecimalLiteral.Mantissa : List Char → List Char → List Char → Prop
  | whole {ds : List Char} (hne : ds ≠ []) (hds : ∀ c ∈ ds, c.isDigit = true) : Mantissa ds [] ds
  | pointed {ds fs : List Char} (hne : ds ≠ [] ∨ fs ≠ []) (hds : ∀ c ∈ ds, c.isDigit = true)
      (hfs : ∀ c ∈ fs, c.isDigit = true) : Mantissa ds fs (ds ++ '.' :: fs)

/-- The ways to write the sign of an exponent, and whether it makes it negative. -/
def DecimalLiteral.signs : List (Bool × List Char) :=
  [(false, []), (false, ['+']), (true, ['-'])]

/-- The exponent behind a mantissa, if there is one. -/
inductive DecimalLiteral.Exponent : Int → List Char → Prop
  | none : Exponent 0 []
  | digits {c : Char} {negative : Bool} {sign ds : List Char} (hc : c = 'e' ∨ c = 'E')
      (hsign : (negative, sign) ∈ signs) (hne : ds ≠ []) (hds : ∀ d ∈ ds, d.isDigit = true) :
      Exponent (if negative then -(digitsValue ds : Int) else digitsValue ds) (c :: (sign ++ ds))

/-- The text is a way to write the literal. -/
inductive DecimalLiteral.Spelled : DecimalLiteral → List Char → Prop
  | mk {whole fraction m x : List Char} {n : Int} (hm : Mantissa whole fraction m)
      (hx : Exponent n x) : Spelled ⟨whole, fraction, n⟩ (m ++ x)

namespace Token

/-- The tokens of one character. -/
def marks : List (Char × Token) :=
  [('+', plus), ('-', minus), ('*', times), ('/', divide), (',', comma), ('(', leftParen),
    (')', rightParen)]

/-- The text is a way to write the token. -/
inductive Spelled : Token → List Char → Prop
  | number {l : DecimalLiteral} {w : List Char} (h : l.Spelled w) : Spelled (number l.value) w
  | name {c : Char} {cs : List Char} (hc : startsName c = true)
      (hcs : ∀ d ∈ cs, inName d = true) : Spelled (name (c :: cs)) (c :: cs)
  | mark {c : Char} {t : Token} (h : (c, t) ∈ marks) : Spelled t [c]

/-- Numbers and names, which would run together if they stood side by side. -/
def isWord : Token → Bool
  | number _ | name _ => true
  | _ => false

/-- Whether anything spells the token. -/
def isProper : Token → Bool
  | unfinished _ | other => false
  | _ => true

end Token

/-- The text is made up of the tokens, with blanks before, between and behind them. -/
inductive Token.SpelledAll : List Token → List Char → Prop
  | nil : SpelledAll [] []
  | blank {c : Char} {ts : List Token} {s : List Char} (hc : isBlank c = true)
      (h : SpelledAll ts s) : SpelledAll ts (c :: s)
  | token {t : Token} {w : List Char} {ts : List Token} {s : List Char} (ht : t.Spelled w)
      (h : SpelledAll ts s) : SpelledAll (t :: ts) (w ++ s)

/-! ## Phrases -/

/-- What a run of tokens can stand for. -/
inductive Phrase
  | expr (e : Formula)
  | term (e : Formula)
  | factor (e : Formula)
  | atom (e : Formula)
  | arguments (es : List Formula)

namespace Expression

/-- The tokens stand for the phrase:

    expr      = term | expr ("+" | "-") term
    term      = factor | term ("*" | "/") factor
    factor    = "-" factor | atom
    atom      = number | name | ("abs" | "min" | "max") "(" arguments ")" | "(" expr ")"
    arguments = expr | arguments "," expr

The left operand of an operator takes in all operators of its level before it. -/
inductive Derives : Phrase → List Token → Prop
  | term {e : Formula} {ts : List Token} (h : Derives (.term e) ts) : Derives (.expr e) ts
  | sum {l r : Formula} {ts us : List Token} {t : Token} {op : Operator}
      (hl : Derives (.expr l) ts) (ht : sumOperator t = some op) (hr : Derives (.term r) us) :
      Derives (.expr (.binary op l r)) (ts ++ t :: us)
  | factor {e : Formula} {ts : List Token} (h : Derives (.factor e) ts) : Derives (.term e) ts
  | product {l r : Formula} {ts us : List Token} {t : Token} {op : Operator}
      (hl : Derives (.term l) ts) (ht : productOperator t = some op)
      (hr : Derives (.factor r) us) : Derives (.term (.binary op l r)) (ts ++ t :: us)
  | negate {e : Formula} {ts : List Token} (h : Derives (.factor e) ts) :
      Derives (.factor (.negate e)) (.minus :: ts)
  | atom {e : Formula} {ts : List Token} (h : Derives (.atom e) ts) : Derives (.factor e) ts
  | number (x : Float) : Derives (.atom (.number x)) [.number x]
  | label (s : List Char) : Derives (.atom (.label (String.ofList s))) [.name s]
  | call (f : Builtin) {es : List Formula} {ts : List Token} (h : Derives (.arguments es) ts) :
      Derives (.atom (.call f es)) (.name f.name.toList :: .leftParen :: (ts ++ [.rightParen]))
  | parens {e : Formula} {ts : List Token} (h : Derives (.expr e) ts) :
      Derives (.atom e) (.leftParen :: (ts ++ [.rightParen]))
  | single {e : Formula} {ts : List Token} (h : Derives (.expr e) ts) :
      Derives (.arguments [e]) ts
  | further {es : List Formula} {e : Formula} {ts us : List Token}
      (hes : Derives (.arguments es) ts) (he : Derives (.expr e) us) :
      Derives (.arguments (es ++ [e])) (ts ++ .comma :: us)

theorem mark_of_sumOperator {t : Token} {op : Operator} (h : sumOperator t = some op) :
    t.isWord = false ∧ t.isProper = true := by
  cases t <;> first | exact ⟨rfl, rfl⟩ | cases h

theorem mark_of_productOperator {t : Token} {op : Operator}
    (h : productOperator t = some op) : t.isWord = false ∧ t.isProper = true := by
  cases t <;> first | exact ⟨rfl, rfl⟩ | cases h

/-- Of two tokens side by side, one at least is no word. -/
def Separated (ts : List Token) : Prop :=
  ts.IsChain fun t u => t.isWord = false ∨ u.isWord = false

theorem Separated.cons {ts : List Token} {t : Token} (hts : Separated ts)
    (ht : t.isWord = false) : Separated (t :: ts) :=
  List.isChain_cons.2 ⟨fun _ _ => .inl ht, hts⟩

theorem Separated.append {ts us : List Token} {t : Token} (hts : Separated ts)
    (ht : t.isWord = false) (hus : Separated us) : Separated (ts ++ t :: us) := by
  refine List.isChain_append.2 ⟨hts, hus.cons ht, fun _ _ u hu => ?_⟩
  obtain rfl : t = u := by simpa using hu
  exact .inr ht

/-- A derivation leaves a mark between any two words. -/
theorem Derives.separated {p : Phrase} {ts : List Token} (h : Derives p ts) : Separated ts := by
  induction h with
  | term _ ih | factor _ ih | atom _ ih | single _ ih => exact ih
  | sum _ ht _ ihl ihr => exact ihl.append (mark_of_sumOperator ht).1 ihr
  | product _ ht _ ihl ihr => exact ihl.append (mark_of_productOperator ht).1 ihr
  | negate _ ih => exact ih.cons rfl
  | number x => exact List.isChain_singleton _
  | label s => exact List.isChain_singleton _
  | call f _ ih =>
    have hbehind := ih.append (t := .rightParen) rfl .nil
    exact List.isChain_cons_cons.2 ⟨.inr rfl, hbehind.cons rfl⟩
  | parens _ ih => exact (ih.append rfl .nil).cons rfl
  | further _ _ ihs ih => exact ihs.append rfl ih

/-- A derivation takes up tokens, and each of them can be spelled. -/
theorem Derives.proper {p : Phrase} {ts : List Token} (h : Derives p ts) :
    ts ≠ [] ∧ ∀ t ∈ ts, t.isProper = true := by
  induction h with
  | term _ ih | factor _ ih | atom _ ih | single _ ih => exact ih
  | sum _ ht _ ihl ihr =>
    have := (mark_of_sumOperator ht).2
    simp_all [or_imp]
  | product _ ht _ ihl ihr =>
    have := (mark_of_productOperator ht).2
    simp_all [or_imp]
  | negate _ ih => simpa [Token.isProper] using ih.2
  | number x => simp [Token.isProper]
  | label s => simp [Token.isProper]
  | call f _ ih => simpa [Token.isProper, or_imp, forall_and] using ih.2
  | parens _ ih => simpa [Token.isProper, or_imp, forall_and] using ih.2
  | further _ _ ihs ih => simpa [Token.isProper, or_imp, forall_and] using ⟨ihs.2, ih.2⟩

end Expression

/-! ## Calls of `abs` -/

namespace Formula

mutual

/-- Every call of `abs` in the formula has exactly one argument. -/
def UnaryAbs : Formula → Prop
  | number _ | label _ => True
  | negate inner => inner.UnaryAbs
  | binary _ left right => left.UnaryAbs ∧ right.UnaryAbs
  | call f args => (f = .abs → args.length = 1) ∧ UnaryAbsAll args

def UnaryAbsAll : List Formula → Prop
  | [] => True
  | a :: rest => a.UnaryAbs ∧ UnaryAbsAll rest

end

mutual

theorem wrongArity?_eq_none_iff (e : Formula) : e.wrongArity? = none ↔ e.UnaryAbs := by
  cases e with
  | number x => simp [wrongArity?, UnaryAbs]
  | label name => simp [wrongArity?, UnaryAbs]
  | negate inner => simpa [wrongArity?, UnaryAbs] using wrongArity?_eq_none_iff inner
  | binary op left right =>
    simp [wrongArity?, UnaryAbs, wrongArity?_eq_none_iff left, wrongArity?_eq_none_iff right]
  | call f args =>
    rw [wrongArity?, UnaryAbs, ← wrongArityAll?_eq_none_iff args]
    split
    next h => simp [h.1, h.2]
    next h => exact (and_iff_right (by simpa using h)).symm

theorem wrongArityAll?_eq_none_iff (es : List Formula) :
    wrongArityAll? es = none ↔ UnaryAbsAll es := by
  cases es with
  | nil => simp [wrongArityAll?, UnaryAbsAll]
  | cons e rest =>
    simp [wrongArityAll?, UnaryAbsAll, wrongArity?_eq_none_iff e,
      wrongArityAll?_eq_none_iff rest]

end

end Formula

end Telemetry
