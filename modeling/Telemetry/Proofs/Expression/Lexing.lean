import Telemetry.Proofs.Expression.Grammar
import Telemetry.Proofs.Text

/-!
# Cutting a text into tokens

A text is cut into the longest words it begins with. In a text that is spelled by tokens, a word
goes just as far as the token that spells it, as long as no other word stands right behind it, for
neither blanks nor marks go on with a word.
-/

namespace Telemetry

/-- No word goes on with the text. -/
def Token.Apart (s : List Char) : Prop :=
  ∀ c ∈ s.head?, inName c = false

namespace Token.Apart

theorem of_isBlank {c : Char} {s : List Char} (h : isBlank c = true) : Apart (c :: s) := by
  intro d hd
  obtain rfl : c = d := by simpa using hd
  simp only [isBlank, Bool.or_eq_true, decide_eq_true_eq] at h
  rcases h with ((h | h) | h) | h <;> subst h <;> decide

theorem of_marks {c : Char} {t : Token} {s : List Char} (h : (c, t) ∈ marks) :
    Apart (c :: s) := by
  intro d hd
  obtain rfl : c = d := by simpa using hd
  simp only [marks, List.mem_cons, Prod.mk.injEq, List.not_mem_nil, or_false] at h
  rcases h with ⟨rfl, -⟩ | ⟨rfl, -⟩ | ⟨rfl, -⟩ | ⟨rfl, -⟩ | ⟨rfl, -⟩ | ⟨rfl, -⟩ | ⟨rfl, -⟩ <;>
    decide

/-- A text that goes on with no word does not go on with a number. -/
theorem inNumber {c : Char} {s : List Char} (h : Apart (c :: s)) :
    c.isDigit = false ∧ c ≠ '.' ∧ c ≠ 'e' ∧ c ≠ 'E' := by
  have hc := h c rfl
  refine ⟨?_, ?_, ?_, ?_⟩
  · cases hd : c.isDigit with
    | false => rfl
    | true => simp [inName, Char.isAlphanum, hd] at hc
  · rintro rfl
    exact absurd hc (by decide)
  · rintro rfl
    exact absurd hc (by decide)
  · rintro rfl
    exact absurd hc (by decide)

end Token.Apart

/-! ## Numbers -/

namespace DecimalLiteral

variable {l : DecimalLiteral} {w x m s whole fraction rest : List Char} {n : Int}

theorem splitSign_spelled {negative : Bool} {sign ds : List Char}
    (hsign : (negative, sign) ∈ signs) (hne : ds ≠ []) (hds : ∀ d ∈ ds, d.isDigit = true) :
    splitSign (sign ++ ds ++ s) = (negative, ds ++ s) := by
  simp only [signs, List.mem_cons, Prod.mk.injEq, List.not_mem_nil, or_false] at hsign
  rcases hsign with ⟨rfl, rfl⟩ | ⟨rfl, rfl⟩ | ⟨rfl, rfl⟩
  · cases ds with
    | nil => exact absurd rfl hne
    | cons d ds =>
      have hd := hds d List.mem_cons_self
      have hminus : d ≠ '-' := by
        rintro rfl
        exact absurd hd (by decide)
      have hplus : d ≠ '+' := by
        rintro rfl
        exact absurd hd (by decide)
      simp [splitSign, hminus, hplus]
  · rfl
  · rfl

theorem mem_signs_splitSign (s : List Char) :
    ∃ sign, ((splitSign s).1, sign) ∈ signs ∧ s = sign ++ (splitSign s).2 := by
  unfold splitSign
  split
  · exact ⟨['-'], by simp [signs], rfl⟩
  · exact ⟨['+'], by simp [signs], rfl⟩
  · exact ⟨[], by simp [signs], rfl⟩

theorem scanExponent_spelled (hx : Exponent n x) (hs : Token.Apart s) :
    scanExponent whole fraction (x ++ s) = .literal ⟨whole, fraction, n⟩ s := by
  cases hx with
  | none =>
    cases s with
    | nil => rfl
    | cons c s =>
      obtain ⟨-, -, he, hE⟩ := hs.inNumber
      simp [scanExponent, he, hE]
  | @digits c negative sign ds hc hsign hne hds =>
    have hhead : ∀ c ∈ s.head?, c.isDigit = false := by
      intro c hmem
      cases s with
      | nil => cases hmem
      | cons d s =>
        obtain rfl : d = c := by simpa using hmem
        exact hs.inNumber.1
    obtain ⟨htake, hdrop⟩ := takeWhile_append_of_head hds hhead
    have hmark : (c = 'e' || c = 'E') = true := by simpa using hc
    rw [List.cons_append, scanExponent, if_pos hmark, splitSign_spelled hsign hne hds]
    simp [htake, hdrop, hne]

/-- What may stand behind a mantissa is neither a digit nor a point. -/
theorem Exponent.head (hx : Exponent n x) (hs : Token.Apart s) :
    ∀ c ∈ (x ++ s).head?, c.isDigit = false ∧ c ≠ '.' := by
  intro c hmem
  cases hx with
  | none =>
    cases s with
    | nil => cases hmem
    | cons d s =>
      obtain rfl : d = c := by simpa using hmem
      exact ⟨hs.inNumber.1, hs.inNumber.2.1⟩
  | digits hc =>
    obtain rfl : _ = c := by simpa using hmem
    rcases hc with rfl | rfl <;> decide

theorem scan_of_point {r : List Char} (h : s.dropWhile Char.isDigit = '.' :: r)
    (hne : s.takeWhile Char.isDigit ≠ [] ∨ r.takeWhile Char.isDigit ≠ []) :
    scan s = scanExponent (s.takeWhile Char.isDigit) (r.takeWhile Char.isDigit)
      (r.dropWhile Char.isDigit) := by
  unfold scan
  rw [h]
  refine if_neg ?_
  simpa only [Bool.and_eq_true, List.isEmpty_iff, not_and_or] using hne

theorem scan_of_no_point (h : '.' ∉ (s.dropWhile Char.isDigit).head?)
    (hne : s.takeWhile Char.isDigit ≠ []) :
    scan s = scanExponent (s.takeWhile Char.isDigit) [] (s.dropWhile Char.isDigit) := by
  unfold scan
  split
  next heq => simp [heq] at h
  next => exact if_neg (by simpa using hne)

/-- A literal is read back as far as it was spelled. -/
theorem Spelled.scan (h : l.Spelled w) (hs : Token.Apart s) :
    DecimalLiteral.scan (w ++ s) = .literal l s := by
  obtain @⟨whole, fraction, m, x, n, hm, hx⟩ := h
  have hhead := hx.head hs
  rw [List.append_assoc]
  cases hm with
  | whole hne hds =>
    obtain ⟨htake, hdrop⟩ := takeWhile_append_of_head hds fun c hc => (hhead c hc).1
    rw [scan_of_no_point, htake, hdrop, scanExponent_spelled hx hs]
    · rw [hdrop]
      exact fun hc => (hhead '.' hc).2 rfl
    · rwa [htake]
  | pointed hne hds hfs =>
    have hpoint : ∀ c ∈ ('.' :: (fraction ++ (x ++ s))).head?, c.isDigit = false := by
      rintro c ⟨⟩
      decide
    obtain ⟨htake, hdrop⟩ := takeWhile_append_of_head hds hpoint
    obtain ⟨htake', hdrop'⟩ := takeWhile_append_of_head hfs fun c hc => (hhead c hc).1
    rw [List.append_assoc, List.cons_append, scan_of_point hdrop, htake, htake', hdrop',
      scanExponent_spelled hx hs]
    rwa [htake, htake']

theorem exponent_of_scanExponent (h : scanExponent whole fraction s = .literal l rest) :
    l.whole = whole ∧ l.fraction = fraction ∧ ∃ x, Exponent l.exponent x ∧ s = x ++ rest := by
  cases s with
  | nil =>
    cases h
    exact ⟨rfl, rfl, [], .none, rfl⟩
  | cons c r =>
    rw [scanExponent] at h
    split at h
    next hc =>
      obtain ⟨sign, hsign, hr⟩ := mem_signs_splitSign r
      dsimp only at h
      split at h
      · cases h
      next hne =>
        cases h
        refine ⟨rfl, rfl, _, .digits (by simpa using hc) hsign (by simpa using hne) ?_, ?_⟩
        · intro d hd
          exact List.mem_takeWhile_imp hd
        · rw [List.cons_append, List.append_assoc, List.takeWhile_append_dropWhile, ← hr]
    · cases h
      exact ⟨rfl, rfl, [], .none, rfl⟩

/-- What is read as a literal is a way to spell it. -/
theorem spelled_of_scan (h : DecimalLiteral.scan s = .literal l rest) :
    ∃ w, l.Spelled w ∧ s = w ++ rest := by
  have hdigits : ∀ s : List Char, ∀ c ∈ s.takeWhile Char.isDigit, c.isDigit = true :=
    fun s c hc => List.mem_takeWhile_imp hc
  have hsplit := List.takeWhile_append_dropWhile (p := Char.isDigit) (l := s)
  obtain ⟨whole, fraction, n⟩ := l
  unfold DecimalLiteral.scan at h
  split at h
  next r heq =>
    dsimp only at h
    split at h
    · cases h
    next hne =>
      obtain ⟨rfl, rfl, x, hx, hr⟩ := exponent_of_scanExponent h
      refine ⟨_, .mk (.pointed ?_ (hdigits s) (hdigits r)) hx, ?_⟩
      · simpa only [Bool.and_eq_true, List.isEmpty_iff, not_and_or] using hne
      · rw [List.append_assoc, List.append_assoc, ← hr, List.cons_append,
          List.takeWhile_append_dropWhile, ← heq, hsplit]
  next r _ =>
    dsimp only at h
    split at h
    · cases h
    next hne =>
      obtain ⟨rfl, rfl, x, hx, hr⟩ := exponent_of_scanExponent h
      refine ⟨_, .mk (.whole ?_ (hdigits s)) hx, ?_⟩
      · simpa using hne
      · rw [List.append_assoc, ← hr, hsplit]

theorem scan_eq_nothing {c : Char} (hdigit : c.isDigit = false) (hpoint : c ≠ '.') :
    DecimalLiteral.scan (c :: s) = .nothing := by
  unfold DecimalLiteral.scan
  rw [List.takeWhile_cons_of_neg (by simp [hdigit]), List.dropWhile_cons_of_neg (by simp [hdigit])]
  split
  next heq => exact absurd (List.cons.inj heq).1 hpoint
  next => rfl

/-- A literal begins with a digit or a point. -/
theorem Spelled.cons (h : l.Spelled w) : ∃ c cs, w = c :: cs ∧ (c.isDigit = true ∨ c = '.') := by
  obtain @⟨whole, fraction, m, x, n, hm, hx⟩ := h
  have hfirst : ∀ {ds : List Char}, ds ≠ [] → (∀ c ∈ ds, c.isDigit = true) →
      ∃ c cs, ds = c :: cs ∧ c.isDigit = true := by
    intro ds hne hds
    obtain ⟨c, cs, rfl⟩ := List.exists_cons_of_ne_nil hne
    exact ⟨c, cs, rfl, hds c List.mem_cons_self⟩
  cases hm with
  | whole hne hds =>
    obtain ⟨c, cs, rfl, hc⟩ := hfirst hne hds
    exact ⟨c, _, rfl, .inl hc⟩
  | pointed hne hds hfs =>
    cases whole with
    | nil => exact ⟨'.', _, rfl, .inr rfl⟩
    | cons c whole => exact ⟨c, _, rfl, .inl (hds c List.mem_cons_self)⟩

end DecimalLiteral

/-! ## Single tokens -/

theorem isSpace_eq_false {c : Char} (h : 0x21 ≤ c.toNat ∧ c.toNat ≤ 0x7E) : isSpace c = false := by
  simp only [isSpace, Bool.or_eq_false_iff, Bool.and_eq_false_iff, decide_eq_false_iff_not]
  omega

namespace Token

variable {t : Token} {w s cs : List Char} {c : Char} {ts : List Token}

theorem toNat_of_startsName (h : startsName c = true) : 0x41 ≤ c.toNat ∧ c.toNat ≤ 0x7A := by
  rw [startsName] at h
  delta Char.isAlpha Char.isUpper Char.isLower at h
  simp only [Bool.or_eq_true, Bool.and_eq_true, decide_eq_true_eq, UInt32.le_iff_toNat_le,
    ge_iff_le] at h
  rcases h with (⟨h, h'⟩ | ⟨h, h'⟩) | rfl
  · exact ⟨h, h'.trans (by decide)⟩
  · exact ⟨le_trans (by decide) h, h'⟩
  · decide

theorem startsName_of_number (h : c.isDigit = true ∨ c = '.') : startsName c = false := by
  rcases h with h | rfl
  · have hc := toNat_of_isDigit h
    cases hs : startsName c with
    | false => rfl
    | true =>
      have := toNat_of_startsName hs
      omega
  · decide

theorem Apart.startsName (h : Apart (c :: s)) : startsName c = false := by
  have hc := h c rfl
  simp only [inName, Char.isAlphanum, Bool.or_eq_false_iff] at hc
  simp [Token.startsName, hc]

/-- A token is spelled by at least one character, which is no white space. -/
theorem Spelled.first (h : t.Spelled w) : ∃ c cs, w = c :: cs ∧ isSpace c = false := by
  cases h with
  | number h =>
    obtain ⟨c, cs, rfl, hc⟩ := h.cons
    refine ⟨c, cs, rfl, isSpace_eq_false ?_⟩
    rcases hc with hc | rfl
    · have := toNat_of_isDigit hc
      omega
    · decide
  | name hc =>
    have := toNat_of_startsName hc
    exact ⟨_, _, rfl, isSpace_eq_false (by omega)⟩
  | mark h =>
    refine ⟨_, [], rfl, isSpace_eq_false ?_⟩
    simp only [marks, List.mem_cons, Prod.mk.injEq, List.not_mem_nil, or_false] at h
    rcases h with ⟨rfl, -⟩ | ⟨rfl, -⟩ | ⟨rfl, -⟩ | ⟨rfl, -⟩ | ⟨rfl, -⟩ | ⟨rfl, -⟩ | ⟨rfl, -⟩ <;>
      decide

theorem ofChar_of_marks (h : (c, t) ∈ marks) : ofChar c = t := by
  simp only [marks, List.mem_cons, Prod.mk.injEq, List.not_mem_nil, or_false] at h
  rcases h with ⟨rfl, rfl⟩ | ⟨rfl, rfl⟩ | ⟨rfl, rfl⟩ | ⟨rfl, rfl⟩ | ⟨rfl, rfl⟩ | ⟨rfl, rfl⟩ |
    ⟨rfl, rfl⟩ <;> rfl

theorem ofChar_mem_marks (h : (ofChar c).isProper = true) : (c, ofChar c) ∈ marks := by
  unfold ofChar at h ⊢
  split at h
  case h_8 => cases h
  all_goals simp [marks]

/-- A token is read back from the text that spells it, unless it is a word and the text goes on
with it. -/
theorem Spelled.next (h : t.Spelled w) (hs : t.isWord = true → Apart s) :
    ∃ c cs, w = c :: cs ∧ Token.next c (cs ++ s) = (t, s) := by
  cases h with
  | number h =>
    obtain ⟨c, cs, rfl, hc⟩ := h.cons
    have hscan := h.scan (hs rfl)
    rw [List.cons_append] at hscan
    exact ⟨c, cs, rfl, by simp [Token.next, startsName_of_number hc, hscan]⟩
  | @name c cs hc hcs =>
    obtain ⟨htake, hdrop⟩ := takeWhile_append_of_head hcs (hs rfl)
    exact ⟨c, cs, rfl, by simp [Token.next, hc, htake, hdrop]⟩
  | @mark c t h =>
    have hapart := Apart.of_marks (s := s) h
    obtain ⟨hdigit, hpoint, -⟩ := hapart.inNumber
    have hscan := DecimalLiteral.scan_eq_nothing (s := s) hdigit hpoint
    exact ⟨c, [], rfl, by simp [Token.next, hapart.startsName, hscan, ofChar_of_marks h]⟩

/-- What is read as a token that can be spelled is a way to spell it. -/
theorem spelled_of_next (h : (next c cs).1.isProper = true) :
    ∃ w, (next c cs).1.Spelled w ∧ c :: cs = w ++ (next c cs).2 := by
  unfold next at h ⊢
  split at h
  next hc =>
    rw [if_pos hc]
    refine ⟨_, .name hc fun d hd => List.mem_takeWhile_imp hd, ?_⟩
    rw [List.cons_append, List.takeWhile_append_dropWhile]
  next hc =>
    rw [if_neg hc]
    cases hscan : DecimalLiteral.scan (c :: cs) with
    | nothing =>
      rw [hscan] at h
      exact ⟨[c], .mark (ofChar_mem_marks h), rfl⟩
    | unfinished rest =>
      rw [hscan] at h
      cases h
    | literal l rest =>
      obtain ⟨w, hw, hrest⟩ := DecimalLiteral.spelled_of_scan hscan
      exact ⟨w, .number hw, hrest⟩

/-! ## Texts -/

/-- In a text whose first token is no word, no word goes on. -/
theorem SpelledAll.apart (h : SpelledAll ts s) (hts : ∀ t ∈ ts.head?, t.isWord = false) :
    Apart s := by
  cases h with
  | nil =>
    intro c hc
    cases hc
  | blank hc => exact .of_isBlank hc
  | token ht =>
    have hword := hts _ rfl
    cases ht with
    | number | name => cases hword
    | mark hmark => exact .of_marks hmark

/-- White space spells no token. -/
theorem SpelledAll.all_isSpace (h : SpelledAll ts s) (hts : ts ≠ []) : s.all isSpace = false := by
  induction h with
  | nil => exact absurd rfl hts
  | blank _ _ ih => simp [ih hts]
  | token ht =>
    obtain ⟨c, cs, rfl, hc⟩ := ht.first
    simp [hc]

end Token

open Token

/-- The tokens that spell a text are the ones it is cut into, as long as no two words stand side by
side. -/
theorem map_token_lexemes {ts : List Token} {s : List Char} (h : SpelledAll ts s)
    (hts : Expression.Separated ts) : (lexemes s).map (·.token) = ts := by
  induction h with
  | nil => simp [lexemes]
  | blank hc _ ih =>
    rw [lexemes, if_pos hc]
    exact ih hts
  | @token t w ts s ht h ih =>
    have hword : t.isWord = true → Apart s := by
      intro hw
      refine h.apart fun u hu => ?_
      have := (List.isChain_cons.1 hts).1 u hu
      simpa [hw] using this
    obtain ⟨c, cs, rfl, hnext⟩ := ht.next hword
    have hblank : isBlank c = false := by
      obtain ⟨c', cs', heq, hc⟩ := ht.first
      cases heq
      cases hb : isBlank c with
      | false => rfl
      | true => simp [isSpace_of_isBlank hb] at hc
    rw [List.cons_append, lexemes, if_neg (by simp [hblank]), hnext, List.map_cons,
      ih (List.isChain_cons.1 hts).2]

/-- A text is spelled by the tokens it is cut into, if each of them can be spelled. -/
theorem spelledAll_lexemes (s : List Char)
    (h : ∀ t ∈ (lexemes s).map (·.token), t.isProper = true) :
    SpelledAll ((lexemes s).map (·.token)) s := by
  induction s using lexemes.induct with
  | case1 =>
    rw [lexemes]
    exact .nil
  | case2 c cs hc ih =>
    rw [lexemes, if_pos hc] at h ⊢
    exact .blank hc (ih h)
  | case3 c cs hc ih =>
    rw [lexemes, if_neg hc, List.map_cons] at h ⊢
    obtain ⟨w, hw, heq⟩ := spelled_of_next (h _ List.mem_cons_self)
    rw [heq]
    exact .token hw (ih fun t ht => h t (List.mem_cons_of_mem _ ht))

end Telemetry
