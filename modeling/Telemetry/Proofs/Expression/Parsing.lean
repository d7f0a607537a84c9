import Telemetry.Proofs.Expression.Lexing

/-!
# Texts and their formulas

Reading never leaves the grammar, `sound_expr`: what is found stands for the tokens that were taken
up. It does not miss anything the grammar has either, `Derives.reads`, although each choice is made
with one token in view. For this one has to say what may stand behind a phrase. An operator is taken
up by the innermost phrase it can go on with, and a parenthesis behind a name makes a call of it, so
that a phrase is read to its end where none of these follows.
-/

namespace Telemetry

namespace Expression

variable {item : List Lexeme → Parsed} {op : Token → Option Operator}
  {lower upper : Formula → Phrase} {ls rest : List Lexeme}

/-! ## What is found is derivable -/

/-- Up to where `rest` begins, the lexemes stand for the phrase. -/
def Consumes (p : Phrase) (ls rest : List Lexeme) : Prop :=
  ∃ pre, ls = pre ++ rest ∧ Derives p (pre.map (·.token))

/-- What the reader finds, it has taken up. -/
def Sound (p : Formula → Phrase) (item : List Lexeme → Parsed) : Prop :=
  ∀ ls e rest, item ls = .found e rest → Consumes (p e) ls rest

/-- Operands from the lower level and the operators between them make up the upper level. -/
structure Joins (op : Token → Option Operator) (lower upper : Formula → Phrase) : Prop where
  one : ∀ {e ts}, Derives (lower e) ts → Derives (upper e) ts
  more : ∀ {l r ts us t o}, Derives (upper l) ts → op t = some o → Derives (lower r) us →
    Derives (upper (.binary o l r)) (ts ++ t :: us)

theorem joins_product : Joins productOperator .factor .term := ⟨.factor, .product⟩

theorem joins_sum : Joins sumOperator .term .expr := ⟨.term, .sum⟩

theorem Consumes.chain (hop : Joins op lower upper) (hitem : Sound lower item) {fuel : Nat}
    {left e : Formula} {mid : List Lexeme} (hleft : Consumes (upper left) ls mid)
    (h : Expression.chain op item fuel left mid = .found e rest) : Consumes (upper e) ls rest := by
  induction fuel generalizing left mid with
  | zero =>
    cases h
    exact hleft
  | succ fuel ih =>
    cases mid with
    | nil =>
      cases h
      exact hleft
    | cons l mid =>
      rw [Expression.chain] at h
      split at h
      · cases h
        exact hleft
      next o ho =>
        split at h
        next right behind hright =>
          obtain ⟨pre, rfl, hpre⟩ := hleft
          obtain ⟨pre', rfl, hpre'⟩ := hitem _ _ _ hright
          refine ih ⟨pre ++ l :: pre', by simp, ?_⟩ h
          rw [List.map_append, List.map_cons]
          exact hop.more hpre ho hpre'
        · cases h
          exact hleft
        · cases h

theorem sound_level (hop : Joins op lower upper) (hitem : Sound lower item) :
    Sound upper (level op item) := by
  intro ls e rest h
  unfold level at h
  split at h
  next left mid hleft =>
    obtain ⟨pre, hls, hpre⟩ := hitem _ _ _ hleft
    exact .chain hop hitem ⟨pre, hls, hop.one hpre⟩ h
  next hfail => exact absurd h (hfail e rest)

theorem sound_factor (hitem : Sound .atom item) : Sound .factor (factor item) := by
  intro ls
  fun_induction factor item ls with
  | case1 text ls inner behind hinner ih =>
    rintro e rest ⟨⟩
    obtain ⟨pre, rfl, hpre⟩ := ih _ _ hinner
    exact ⟨⟨.minus, text⟩ :: pre, rfl, .negate hpre⟩
  | case2 text ls _ _ ih =>
    intro e rest h
    obtain ⟨pre, hls, hpre⟩ := hitem _ _ _ h
    exact ⟨pre, hls, .atom hpre⟩
  | case3 text ls => rintro e rest ⟨⟩
  | case4 ls =>
    intro e rest h
    obtain ⟨pre, hls, hpre⟩ := hitem _ _ _ h
    exact ⟨pre, hls, .atom hpre⟩

theorem Consumes.arguments (hitem : Sound .expr item) {fuel : Nat} {as es : List Formula}
    {mid : List Lexeme} (has : Consumes (.arguments as) ls mid)
    (h : Expression.arguments item fuel as mid = .found es rest) :
    Consumes (.arguments es) ls rest := by
  induction fuel generalizing as mid with
  | zero =>
    cases h
    exact has
  | succ fuel ih =>
    unfold Expression.arguments at h
    split at h
    next text behind =>
      split at h
      next a behind' ha =>
        obtain ⟨pre, rfl, hpre⟩ := has
        obtain ⟨pre', rfl, hpre'⟩ := hitem _ _ _ ha
        refine ih ⟨pre ++ ⟨.comma, text⟩ :: pre', by simp, ?_⟩ h
        rw [List.map_append, List.map_cons]
        exact .further hpre hpre'
      · cases h
        exact has
      · cases h
    · cases h
      exact has

theorem exists_of_callArguments (hitem : Sound .expr item) {es : List Formula}
    (h : callArguments item ls = .found es rest) :
    ∃ text, Consumes (.arguments es) ls (⟨.rightParen, text⟩ :: rest) := by
  unfold callArguments at h
  split at h
  · cases h
  · cases h
  next a mid ha =>
    split at h
    next args text behind hargs =>
      cases h
      obtain ⟨pre, hls, hpre⟩ := hitem _ _ _ ha
      exact ⟨text, .arguments hitem ⟨pre, hls, .single hpre⟩ hargs⟩
    · cases h
    next hfail => exact absurd h (hfail es rest)

theorem eq_of_ofName? {s : List Char} {f : Builtin}
    (h : Builtin.ofName? (String.ofList s) = some f) : s = f.name.toList := by
  have hname := List.find?_some h
  rw [of_decide_eq_true hname, String.toList_ofList]

theorem sound_atom (hitem : Sound .expr item) : Sound .atom (atom item) := by
  intro ls e rest h
  unfold atom at h
  split at h
  next x text ls =>
    cases h
    exact ⟨[⟨.number x, text⟩], rfl, .number x⟩
  · cases h
  next s text ls =>
    have hlabel : Consumes (.atom (.label (String.ofList s))) (⟨.name s, text⟩ :: ls) ls :=
      ⟨[⟨.name s, text⟩], rfl, .label s⟩
    dsimp only at h
    split at h
    next f text' behind hf =>
      obtain rfl := eq_of_ofName? hf
      split at h
      next args behind' hargs =>
        cases h
        obtain ⟨text'', pre, rfl, hpre⟩ := exists_of_callArguments hitem hargs
        refine ⟨⟨.name f.name.toList, text⟩ :: ⟨.leftParen, text'⟩ ::
          (pre ++ [⟨.rightParen, text''⟩]), by simp, ?_⟩
        simpa using Derives.call f hpre
      · cases h
        exact hlabel
      · cases h
    · cases h
      exact hlabel
  next text ls =>
    split at h
    next inner text' behind hinner =>
      cases h
      obtain ⟨pre, rfl, hpre⟩ := hitem _ _ _ hinner
      refine ⟨⟨.leftParen, text⟩ :: (pre ++ [⟨.rightParen, text'⟩]), by simp, ?_⟩
      simpa using Derives.parens hpre
    · cases h
    next hfail => exact absurd h (hfail e rest)
  · cases h

/-- What is found as an expression is one. -/
theorem sound_expr (n : Nat) : Sound .expr (expr n) := by
  induction n with
  | zero =>
    intro ls e rest h
    cases h
  | succ n ih =>
    exact sound_level joins_sum (sound_level joins_product (sound_factor (sound_atom ih)))

/-! ## What is derivable is found -/

/-- Whether the token, behind a phrase, is taken up by a part of it. -/
def goesOn : Phrase → Token → Bool
  | .atom _, t | .factor _, t | .term _, t => (t matches .leftParen)
  | .expr _, t => (t matches .leftParen) || (productOperator t).isSome
  | .arguments _, t =>
    (t matches .leftParen) || (productOperator t).isSome || (sumOperator t).isSome

/-- The lexemes do not begin with a token that goes on with the phrase. -/
def Ends (p : Phrase) (rest : List Lexeme) : Prop :=
  ∀ l ∈ rest.head?, goesOn p l.token = false

/-- Reading with up to `n` parentheses takes up the phrase and leaves `rest`. Behind an operand, the
operators of its level are yet to be read, and behind an argument the further ones; there are enough
steps left for what follows. -/
def Reads (n : Nat) (ls rest : List Lexeme) : Phrase → Prop
  | .atom e => atom (expr n) ls = .found e rest
  | .factor e => factor (atom (expr n)) ls = .found e rest
  | .term e => ∃ k ≥ rest.length,
      level productOperator (factor (atom (expr n))) ls =
        chain productOperator (factor (atom (expr n))) k e rest
  | .expr e => ∃ k ≥ rest.length,
      expr (n + 1) ls =
        chain sumOperator (level productOperator (factor (atom (expr n)))) k e rest
  | .arguments es => ∃ a mid, ∃ k ≥ rest.length,
      expr (n + 1) ls = .found a mid ∧
        arguments (expr (n + 1)) mid.length [a] mid = arguments (expr (n + 1)) k es rest

/-- A chain ends where no operator of its level follows. -/
theorem chain_eq_found {fuel : Nat} {e : Formula} (h : ∀ l ∈ rest.head?, op l.token = none) :
    chain op item fuel e rest = .found e rest := by
  cases fuel with
  | zero => rfl
  | succ fuel =>
    cases rest with
    | nil => rfl
    | cons l rest => simp only [chain, h l rfl]

theorem level_of_found {e : Formula} (h : item ls = .found e rest) :
    level op item ls = chain op item rest.length e rest := by
  simp only [level, h]

/-- A chain goes on with an operator and its right operand. -/
theorem chain_cons {fuel : Nat} {e r : Formula} {l : Lexeme} {o : Operator}
    (hfuel : (l :: (ls ++ rest)).length ≤ fuel) (ho : op l.token = some o)
    (hr : item (ls ++ rest) = .found r rest) :
    ∃ k ≥ rest.length,
      chain op item fuel e (l :: (ls ++ rest)) = chain op item k (.binary o e r) rest := by
  cases fuel with
  | zero => simp at hfuel
  | succ fuel =>
    refine ⟨fuel, ?_, by simp only [chain, ho, hr]⟩
    simp only [List.length_cons, List.length_append] at hfuel
    omega

/-- An atom does not begin with a minus sign, so that it is read as a factor. -/
theorem factor_of_atom {e : Formula} (h : atom item ls = .found e rest) :
    factor (atom item) ls = .found e rest := by
  unfold factor
  split
  · cases h
  · exact h

theorem ofName?_name (f : Builtin) : Builtin.ofName? (String.ofList f.name.toList) = some f := by
  cases f <;> rfl

section Reads

variable {n : Nat} {e e' : Formula} {es : List Formula}

theorem Ends.term (h : Ends (.expr e) rest) : Ends (.term e') rest :=
  fun l hl => (Bool.or_eq_false_iff.1 (h l hl)).1

theorem Ends.expr (h : Ends (.arguments es) rest) : Ends (.expr e) rest :=
  fun l hl => (Bool.or_eq_false_iff.1 (h l hl)).1

theorem Ends.product (h : Ends (.expr e) rest) :
    ∀ l ∈ rest.head?, productOperator l.token = none :=
  fun l hl => by simpa using (Bool.or_eq_false_iff.1 (h l hl)).2

theorem Ends.sum (h : Ends (.arguments es) rest) : ∀ l ∈ rest.head?, sumOperator l.token = none :=
  fun l hl => by simpa using (Bool.or_eq_false_iff.1 (h l hl)).2

theorem ends_cons {p : Phrase} {l : Lexeme} (h : goesOn p l.token = false) :
    Ends p (l :: rest) := by
  rintro _ ⟨⟩
  exact h

/-- An operator of sums goes on with none of its operands. -/
theorem goesOn_of_sum {t : Token} {o : Operator} (h : sumOperator t = some o) :
    goesOn (.expr e) t = false := by
  cases t <;> first | rfl | cases h

theorem goesOn_of_product {t : Token} {o : Operator} (h : productOperator t = some o) :
    goesOn (.term e) t = false := by
  cases t <;> first | rfl | cases h

theorem Reads.term (h : Reads n ls rest (.term e)) (hrest : Ends (.expr e) rest) :
    level productOperator (factor (atom (expr n))) ls = .found e rest := by
  obtain ⟨k, -, h⟩ := h
  rw [h, chain_eq_found hrest.product]

theorem Reads.expr (h : Reads n ls rest (.expr e)) (hrest : Ends (.arguments es) rest) :
    expr (n + 1) ls = .found e rest := by
  obtain ⟨k, -, h⟩ := h
  rw [h, chain_eq_found hrest.sum]

theorem Reads.callArguments {text : List Char}
    (h : Reads n ls (⟨.rightParen, text⟩ :: rest) (.arguments es)) :
    callArguments (Expression.expr (n + 1)) ls = .found es rest := by
  obtain ⟨a, mid, k, hk, ha, h⟩ := h
  cases k with
  | zero => simp at hk
  | succ k =>
    unfold Expression.callArguments
    rw [ha]
    dsimp only
    rw [h]
    rfl

end Reads

theorem exists_of_map_token {ls : List Lexeme} {ts us : List Token} {t : Token}
    (h : ls.map (·.token) = ts ++ t :: us) : ∃ left l right,
      ls = left ++ l :: right ∧ left.map (·.token) = ts ∧ l.token = t ∧
        right.map (·.token) = us := by
  obtain ⟨left, behind, rfl, hleft, hbehind⟩ := List.map_eq_append_iff.1 h
  obtain ⟨l, right, rfl, ht, hright⟩ := List.map_eq_cons_iff.1 hbehind
  exact ⟨left, l, right, rfl, hleft, ht, hright⟩

/-- A phrase is read to its end where nothing follows that goes on with it. -/
theorem Derives.reads {p : Phrase} {ts : List Token} (h : Derives p ts) {n : Nat}
    {ls rest : List Lexeme} (hls : ls.map (·.token) = ts) (hn : ls.length ≤ n)
    (hrest : Ends p rest) : Reads n (ls ++ rest) rest p := by
  induction h generalizing n ls rest with
  | term _ ih =>
    have hitem := (ih hls hn hrest.term).term hrest
    exact ⟨rest.length, le_rfl, level_of_found hitem⟩
  | @sum l r ts us t o _ ht _ ihl ihr =>
    obtain ⟨left, t, right, rfl, hleft, rfl, hright⟩ := exists_of_map_token hls
    simp only [List.length_append, List.length_cons] at hn
    rw [List.append_assoc, List.cons_append]
    have hr := (ihr (n := n) hright (by omega) hrest.term).term hrest
    have hend : Ends (.expr l) (t :: (right ++ rest)) := ends_cons (goesOn_of_sum ht)
    obtain ⟨k, hk, hlevel⟩ := ihl (n := n) hleft (by omega) hend
    obtain ⟨k', hk', hchain⟩ := chain_cons hk ht hr
    exact ⟨k', hk', hlevel.trans hchain⟩
  | factor _ ih => exact ⟨rest.length, le_rfl, level_of_found (ih hls hn hrest)⟩
  | @product l r ts us t o _ ht _ ihl ihr =>
    obtain ⟨left, t, right, rfl, hleft, rfl, hright⟩ := exists_of_map_token hls
    simp only [List.length_append, List.length_cons] at hn
    rw [List.append_assoc, List.cons_append]
    have hr := ihr (n := n) hright (by omega) hrest
    have hend : Ends (.term l) (t :: (right ++ rest)) := ends_cons (goesOn_of_product ht)
    obtain ⟨k, hk, hlevel⟩ := ihl (n := n) hleft (by omega) hend
    obtain ⟨k', hk', hchain⟩ := chain_cons hk ht hr
    exact ⟨k', hk', hlevel.trans hchain⟩
  | negate _ ih =>
    obtain ⟨⟨_, text⟩, inner, rfl, rfl, hinner⟩ := List.map_eq_cons_iff.1 hls
    have hread := ih hinner (Nat.le_of_succ_le hn) hrest
    simp only [Reads] at hread ⊢
    simp only [List.cons_append, Expression.factor, hread]
  | atom _ ih => exact factor_of_atom (ih hls hn hrest)
  | number x =>
    obtain ⟨⟨_, text⟩, nothing, rfl, rfl, hnil⟩ := List.map_eq_cons_iff.1 hls
    obtain rfl := List.map_eq_nil_iff.1 hnil
    rfl
  | label s =>
    obtain ⟨⟨_, text⟩, nothing, rfl, rfl, hnil⟩ := List.map_eq_cons_iff.1 hls
    obtain rfl := List.map_eq_nil_iff.1 hnil
    simp only [Reads, List.cons_append, List.nil_append, Expression.atom]
    split
    next text behind _ => cases hrest _ rfl
    next => rfl
  | @call f es ts _ ih =>
    obtain ⟨⟨_, text⟩, l', rfl, rfl, h'⟩ := List.map_eq_cons_iff.1 hls
    obtain ⟨⟨_, text'⟩, l'', rfl, rfl, h''⟩ := List.map_eq_cons_iff.1 h'
    obtain ⟨inner, ⟨_, text''⟩, nothing, rfl, hinner, rfl, hnil⟩ := exists_of_map_token h''
    obtain rfl := List.map_eq_nil_iff.1 hnil
    simp only [List.length_append, List.length_cons, List.length_nil] at hn
    obtain ⟨n, rfl⟩ : ∃ m, n = m + 1 := ⟨n - 1, by omega⟩
    have hend : Ends (.arguments es) (⟨.rightParen, text''⟩ :: rest) := ends_cons rfl
    have hargs := (ih (n := n) hinner (by omega) hend).callArguments
    simp only [Reads, List.cons_append, List.append_assoc, List.nil_append, Expression.atom,
      ofName?_name, hargs]
  | parens _ ih =>
    obtain ⟨⟨_, text⟩, l', rfl, rfl, h'⟩ := List.map_eq_cons_iff.1 hls
    obtain ⟨inner, ⟨_, text'⟩, nothing, rfl, hinner, rfl, hnil⟩ := exists_of_map_token h'
    obtain rfl := List.map_eq_nil_iff.1 hnil
    simp only [List.length_append, List.length_cons, List.length_nil] at hn
    obtain ⟨n, rfl⟩ : ∃ m, n = m + 1 := ⟨n - 1, by omega⟩
    have hend : Ends (.arguments []) (⟨.rightParen, text'⟩ :: rest) := ends_cons rfl
    have hread := (ih (n := n) hinner (by omega) hend.expr).expr hend
    simp only [Reads, List.cons_append, List.append_assoc, List.nil_append, Expression.atom, hread]
  | single _ ih =>
    exact ⟨_, rest, rest.length, le_rfl, (ih hls hn hrest.expr).expr hrest, rfl⟩
  | @further es e ts us _ _ ihs ih =>
    obtain ⟨front, ⟨_, text⟩, last, rfl, hfront, rfl, hlast⟩ := exists_of_map_token hls
    simp only [List.length_append, List.length_cons] at hn
    rw [List.append_assoc, List.cons_append]
    have hend : Ends (.arguments es) (⟨.comma, text⟩ :: (last ++ rest)) := ends_cons rfl
    obtain ⟨a, mid, k, hk, ha, hargs⟩ := ihs (n := n) hfront (by omega) hend
    have hread := (ih (n := n) hlast (by omega) hrest.expr).expr hrest
    cases k with
    | zero => simp at hk
    | succ k =>
      refine ⟨a, mid, k, ?_, ha, hargs.trans ?_⟩
      · simp only [List.length_cons, List.length_append] at hk
        omega
      · simp only [arguments, hread]

/-! ## Texts -/

/-- What is read as a formula is spelled by tokens that stand for it. -/
theorem derives_of_parse {s : List Char} {e : Formula} (h : Formula.parse s = .ok e) :
    ∃ ts, Token.SpelledAll ts s ∧ Derives (.expr e) ts ∧ e.UnaryAbs := by
  unfold Formula.parse at h
  split at h
  · cases h
  split at h
  · cases h
  dsimp only at h
  split at h
  next e' hfound =>
    split at h
    · cases h
    next harity =>
      cases h
      obtain ⟨pre, hpre, hderives⟩ := sound_expr _ _ _ _ hfound
      rw [List.append_nil] at hpre
      rw [← hpre] at hderives
      exact ⟨_, spelledAll_lexemes s hderives.proper.2, hderives,
        (Formula.wrongArity?_eq_none_iff e).1 harity⟩
  · cases h
  · cases h
  · cases h

/-- A text that does not nest too deeply is read as a formula just when it is spelled by tokens that
stand for the formula, and `abs` is called with one argument throughout. -/
theorem parse_eq_ok_iff (s : List Char) (hs : nestingDepth s ≤ maxNesting) (e : Formula) :
    Formula.parse s = .ok e ↔
      ∃ ts, Token.SpelledAll ts s ∧ Derives (.expr e) ts ∧ e.UnaryAbs := by
  have hdepth : ¬ maxNesting < nestingDepth s := Nat.not_lt.2 hs
  constructor
  · exact derives_of_parse
  · rintro ⟨ts, hspelled, hderives, habs⟩
    have hend : Ends (.arguments []) [] := by rintro _ ⟨⟩
    have hls := map_token_lexemes hspelled hderives.separated
    have hread := (hderives.reads hls le_rfl hend.expr).expr hend
    rw [List.append_nil] at hread
    have hspace := hspelled.all_isSpace hderives.proper.1
    simp only [Formula.parse, hspace, hdepth, hread, (Formula.wrongArity?_eq_none_iff e).2 habs,
      Bool.false_eq_true, if_false]

/-- The text `max(a, -2)` reads as it looks. -/
theorem parse_max :
    nestingDepth ['m', 'a', 'x', '(', 'a', ',', ' ', '-', '2', ')'] ≤ maxNesting ∧
      Formula.parse ['m', 'a', 'x', '(', 'a', ',', ' ', '-', '2', ')'] =
        .ok (.call .max [.label "a", .negate (.number (DecimalLiteral.value ⟨['2'], [], 0⟩))]) := by
  have hdepth : nestingDepth ['m', 'a', 'x', '(', 'a', ',', ' ', '-', '2', ')'] ≤ maxNesting := by
    decide
  have htwo : DecimalLiteral.Spelled ⟨['2'], [], 0⟩ ['2'] :=
    .mk (.whole (by simp) (by simp [Char.isDigit])) .none
  have hspelled : Token.SpelledAll
      [.name ['m', 'a', 'x'], .leftParen, .name ['a'], .comma, .minus,
        .number (DecimalLiteral.value ⟨['2'], [], 0⟩), .rightParen]
      ['m', 'a', 'x', '(', 'a', ',', ' ', '-', '2', ')'] :=
    .token (.name (c := 'm') rfl (List.all_eq_true.1 rfl)) <|
      .token (.mark (c := '(') (by simp [Token.marks])) <|
      .token (.name (c := 'a') rfl (by simp)) <|
      .token (.mark (c := ',') (by simp [Token.marks])) <| .blank (by decide) <|
      .token (.mark (c := '-') (by simp [Token.marks])) <| .token (.number htwo) <|
      .token (.mark (c := ')') (by simp [Token.marks])) .nil
  have hexpr : ∀ {e ts}, Derives (.factor e) ts → Derives (.expr e) ts := fun h =>
    .term (.factor h)
  have hcall := Derives.call .max <|
    .further (.single (hexpr (.atom (.label ['a']))))
      (hexpr (.negate (.atom (.number (DecimalLiteral.value ⟨['2'], [], 0⟩)))))
  refine ⟨hdepth, (parse_eq_ok_iff _ hdepth _).2 ⟨_, hspelled, hexpr (.atom hcall), ?_⟩⟩
  simp [Formula.UnaryAbs, Formula.UnaryAbsAll]

end Expression

end Telemetry
