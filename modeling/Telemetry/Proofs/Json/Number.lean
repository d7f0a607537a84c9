import Telemetry.Json.Basic
import Telemetry.Proofs.Decimal
import Telemetry.Proofs.Text

/-!
# Numbers in JSON texts

A literal that is put together by the rules of JSON, `WellFormed`, is read as it is written, as long
as what stands behind it cannot go on with it. Integers and doubles are written as such literals.
-/

namespace Telemetry

/-- No number goes on with this text. -/
def EndsNumber (s : List Char) : Prop :=
  ∀ c ∈ s.head?, c.isDigit = false ∧ c ≠ '.' ∧ c ≠ 'e' ∧ c ≠ 'E'

namespace NumberLiteral

/-- What the rules of JSON ask of a number. -/
structure WellFormed (l : NumberLiteral) : Prop where
  whole : Digits l.whole
  short_of_zero : l.whole.head? = some '0' → l.whole.length ≤ 1
  fraction : ∀ ds ∈ l.fraction, Digits ds
  exponent : ∀ e ∈ l.exponent, Digits e.2

/-! ## Reading -/

section Reading

variable {l : NumberLiteral} {s : List Char}

/-- The text of an exponent. -/
def exponentChars : Option (Bool × List Char) → List Char
  | none => []
  | some (negative, ds) => 'e' :: (if negative then '-' else '+') :: ds

/-- The text of a fraction. -/
def fractionChars : Option (List Char) → List Char
  | none => []
  | some ds => '.' :: ds

theorem chars_eq (l : NumberLiteral) :
    l.chars = (if l.negative then ['-'] else []) ++ l.whole ++ fractionChars l.fraction ++
      exponentChars l.exponent := by
  obtain ⟨_, _, _ | _, _ | ⟨_, _⟩⟩ := l <;> rfl

/-- A number begins with a digit or with its sign. -/
theorem WellFormed.exists_chars (h : l.WellFormed) :
    ∃ c s, l.chars = c :: s ∧ (c.isDigit = true ∨ c = '-') := by
  obtain ⟨c, ds, hwhole⟩ := List.exists_cons_of_ne_nil h.whole.1
  have hc := h.whole.2 c (by rw [hwhole]; exact List.mem_cons_self)
  rw [chars_eq, hwhole]
  cases l.negative with
  | true => exact ⟨'-', _, rfl, .inr rfl⟩
  | false => exact ⟨c, _, rfl, .inl hc⟩

theorem readExponent_exponentChars {e : Option (Bool × List Char)} (he : ∀ x ∈ e, Digits x.2)
    (hs : EndsNumber s) : Json.readExponent (exponentChars e ++ s) = some (e, s) := by
  cases e with
  | none =>
    cases s with
    | nil => rfl
    | cons c s =>
      obtain ⟨-, -, hlower, hupper⟩ := hs c rfl
      simp [exponentChars, Json.readExponent, hlower, hupper]
  | some e =>
    obtain ⟨negative, ds⟩ := e
    have hds : Digits ds := he _ rfl
    have hrun := takeWhile_digits hds fun c hc => (hs c hc).1
    have hsign : DecimalLiteral.splitSign ((if negative then '-' else '+') :: (ds ++ s)) =
        (negative, ds ++ s) := by
      cases negative <;> rfl
    have hne : ds.isEmpty = false := by simpa using hds.1
    simp [exponentChars, Json.readExponent, hsign, hrun.1, hrun.2, hds.1]

theorem readFraction_fractionChars {f : Option (List Char)} (hf : ∀ ds ∈ f, Digits ds)
    (hs : ∀ c ∈ s.head?, c.isDigit = false ∧ c ≠ '.') :
    Json.readFraction (fractionChars f ++ s) = some (f, s) := by
  cases f with
  | none =>
    cases s with
    | nil => rfl
    | cons c s =>
      have hpoint := (hs c rfl).2
      unfold fractionChars Json.readFraction
      split
      · rename_i heq
        cases heq
        exact absurd rfl hpoint
      · rfl
  | some ds =>
    have hds : Digits ds := hf ds rfl
    have hrun := takeWhile_digits hds fun c hc => (hs c hc).1
    simp [fractionChars, Json.readFraction, hrun.1, hrun.2, hds.1]

theorem forall_head?_exponentChars (e : Option (Bool × List Char)) (hs : EndsNumber s) :
    ∀ c ∈ (exponentChars e ++ s).head?, c.isDigit = false ∧ c ≠ '.' := by
  intro c hc
  cases e with
  | none => exact ⟨(hs c hc).1, (hs c hc).2.1⟩
  | some e =>
    obtain rfl : 'e' = c := by simpa [exponentChars] using hc
    decide

theorem forall_head?_fractionChars (f : Option (List Char))
    (hs : ∀ c ∈ s.head?, c.isDigit = false) :
    ∀ c ∈ (fractionChars f ++ s).head?, c.isDigit = false := by
  intro c hc
  cases f with
  | none => exact hs c hc
  | some ds =>
    obtain rfl : '.' = c := by simpa [fractionChars] using hc
    decide

/-- A literal is read as it is written. -/
theorem WellFormed.readNumber (h : l.WellFormed) (hs : EndsNumber s) :
    Json.readNumber (l.chars ++ s) = some (l, s) := by
  have hexponent := forall_head?_exponentChars l.exponent hs
  have hfraction := forall_head?_fractionChars l.fraction fun c hc => (hexponent c hc).1
  have hrun := takeWhile_digits h.whole hfraction
  have hzero : ¬ (l.whole.isEmpty || (l.whole.head? = some '0' && 1 < l.whole.length)) = true := by
    have := h.short_of_zero
    simp [h.whole.1]
    exact this
  have hread := readFraction_fractionChars h.fraction hexponent
  have hread' := readExponent_exponentChars h.exponent hs
  have hdigit := forall_head?_append (s := fractionChars l.fraction ++
    (exponentChars l.exponent ++ s)) h.whole.1 h.whole.2
  generalize htext : l.whole ++ (fractionChars l.fraction ++ (exponentChars l.exponent ++ s)) = text
    at hrun hdigit
  have hchars : l.chars ++ s = if l.negative then '-' :: text else text := by
    rw [chars_eq, ← htext]
    cases l.negative <;> simp
  unfold Json.readNumber
  split
  rename_i negative rest hmatch
  have hparts : negative = l.negative ∧ rest = text := by
    rw [hchars] at hmatch
    cases hnegative : l.negative with
    | true =>
      rw [hnegative, if_pos rfl] at hmatch
      cases hmatch
      exact ⟨rfl, rfl⟩
    | false =>
      rw [hnegative, if_neg (by decide)] at hmatch
      split at hmatch
      · exact absurd (hdigit '-' rfl) (by decide)
      · cases hmatch
        exact ⟨rfl, rfl⟩
  obtain ⟨rfl, rfl⟩ := hparts
  dsimp only
  rw [hrun.1, hrun.2, if_neg hzero, hread]
  simp only [Option.bind_eq_bind, Option.bind_some, hread']
  rfl

end Reading

/-! ## Writing -/

section Writing

variable {d : Decimal}

theorem wellFormed_ofInt (n : Int) : (ofInt n).WellFormed where
  whole := digits_toDigits _
  short_of_zero hzero := by
    have hn : n.natAbs = 0 := by
      by_contra hpos
      exact head?_toDigits (Nat.pos_of_ne_zero hpos) hzero
    show (Nat.toDigits 10 n.natAbs).length ≤ 1
    rw [hn]
    decide
  fraction _ hds := nomatch hds
  exponent _ he := nomatch he

theorem digits_exponentDigits (n : Nat) : Digits (exponentDigits n) := by
  have h := digits_toDigits n
  unfold exponentDigits
  split
  · rename_i c hc
    rw [hc] at h
    exact ⟨by simp, by simpa using h.2⟩
  · exact h

theorem wellFormed_ofDecimal (negative : Bool) (h : 0 < d.digits) :
    (ofDecimal negative d).WellFormed := by
  have hdigits : Digits d.digitChars := digits_toDigits _
  have hzero : Digits ['0'] := ⟨by simp, by simp⟩
  unfold ofDecimal
  split
  · obtain ⟨hwhole, hshort, hfraction⟩ := Decimal.digits_split h
    split
    · rename_i whole heq
      rw [heq] at hwhole hshort
      exact ⟨hwhole, hshort, by simpa using hzero, by simp⟩
    · rename_i whole fraction hne heq
      rw [heq] at hwhole hshort hfraction
      have hfraction' : Digits fraction := ⟨fun hnil => hne (by rw [hnil]), hfraction⟩
      exact ⟨hwhole, hshort, by simpa using hfraction', by simp⟩
  · have hexponent := digits_exponentDigits d.lead.natAbs
    dsimp only
    split
    · rename_i c c' cs heq
      rw [heq] at hdigits
      have hc : Digits [c] := ⟨by simp, by simpa using hdigits.2 c (by simp)⟩
      have hcs : Digits (c' :: cs) :=
        ⟨by simp, fun x hx => hdigits.2 x (List.mem_cons_of_mem c hx)⟩
      exact ⟨hc, fun _ => le_rfl, by simpa using hcs, by simpa using hexponent⟩
    · rename_i hlong
      refine ⟨hdigits, fun _ => ?_, by simp, by simpa using hexponent⟩
      dsimp only
      match hcs : d.digitChars with
      | [] => exact Nat.zero_le 1
      | [c] => exact le_rfl
      | c :: c' :: cs => exact absurd hcs (hlong c c' cs)

/-- Every double that has a notation is written by the rules. -/
theorem wellFormed_ofFloat? {x : Float} {l : NumberLiteral} (h : ofFloat? x = some l) :
    l.WellFormed := by
  have hzero : Digits ['0'] := ⟨by simp, by simp⟩
  unfold ofFloat? at h
  split at h
  · cases h
  cases hd : shortestDecimal? x with
  | none =>
    rw [hd] at h
    cases h
    exact ⟨hzero, fun _ => le_rfl, by simpa using hzero, by simp⟩
  | some d =>
    rw [hd] at h
    cases h
    exact wellFormed_ofDecimal _ (digits_shortestDecimal?_pos hd)

end Writing

/-! ## Integers -/

/-- An integer is read back as it was written. -/
theorem integer?_ofInt (n : Int) : (ofInt n).integer? = some n := by
  have hvalue : digitsValue (ofInt n).whole = n.natAbs := digitsValue_toDigits _
  unfold integer?
  rw [if_neg (by simp [ofInt]), hvalue]
  by_cases hn : n < 0
  · have hnegative : (ofInt n).negative = true := decide_eq_true hn
    simp only [hnegative, if_true]
    rw [if_neg (by omega)]
    congr 1
    omega
  · have hnegative : (ofInt n).negative = false := decide_eq_false hn
    simp only [hnegative, Bool.false_eq_true, if_false]
    congr 1
    omega

theorem signed?_ofInt {n : Int} (hmin : minTicks ≤ n) (hmax : n ≤ maxTicks) :
    (ofInt n).signed? = some n := by
  rw [signed?, integer?_ofInt, Option.filter_some, if_pos (by simp [hmin, hmax])]

theorem word?_ofInt (w : UInt64) : (ofInt w.toNat).word? = some w := by
  have hmax : w.toNat ≤ maxWord := Nat.le_of_lt_succ w.toNat_lt
  rw [word?, integer?_ofInt, Option.filter_some, if_pos (by simpa using hmax), Option.map_some,
    Int.toNat_natCast]
  exact congrArg some (UInt64.ofNat_toNat)

end NumberLiteral

end Telemetry
