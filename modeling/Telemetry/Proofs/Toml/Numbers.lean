import Telemetry.Proofs.Decimal
import Telemetry.Proofs.Toml.Strings

/-!
# Numbers of documents read back

A number is written with digits, or with a word for what has none, and it is read as some number
whatever ends its line or goes on with its array. An integer that 64 bits hold is read back as it
was; so is a floating point number unless its notation is that of another one.
-/

namespace Telemetry.Toml

variable {c : Char} {s ds fs : List Char} {negative : Bool}

/-- What may stand behind a value: the end of its line, or the rest of the array that it is in. -/
def EndsValue (s : List Char) : Prop :=
  ∀ c ∈ s.head?, c = '\n' ∨ c = ',' ∨ c = ']'

theorem endsValue_cons (h : c = '\n' ∨ c = ',' ∨ c = ']') (s : List Char) : EndsValue (c :: s) := by
  intro d hd
  obtain rfl : c = d := by simpa using hd
  exact h

/-- None of the characters that end a value belongs to a class that has neither of them. -/
theorem EndsValue.forall_head? {P : Char → Prop} (hs : EndsValue s) (hline : P '\n')
    (hcomma : P ',') (hbracket : P ']') : ∀ c ∈ s.head?, P c := by
  intro c hc
  rcases hs c hc with rfl | rfl | rfl <;> assumption

/-! ## Digits -/

theorem readDigits_append (hds : Digits ds) (hs : ∀ c ∈ s.head?, c.isDigit = false ∧ c ≠ '_') :
    readDigits Char.isDigit (ds ++ s) = some (ds, s) := by
  obtain ⟨hne, hall⟩ := hds
  induction ds with
  | nil => exact absurd rfl hne
  | cons d ds ih =>
    have hd : d.isDigit = true := hall d List.mem_cons_self
    cases ds with
    | nil =>
      cases s with
      | nil => simp [readDigits, hd]
      | cons c s =>
        obtain ⟨hdigit, hunder⟩ := hs c rfl
        rw [List.cons_append, List.nil_append, readDigits, if_pos hd, if_neg (by simp [hdigit])]
        exact hunder
    | cons d' ds =>
      have hd' : d'.isDigit = true := hall d' (by simp)
      have hread := ih (by simp) fun c hc => hall c (List.mem_cons_of_mem d hc)
      rw [List.cons_append] at hread
      rw [List.cons_append, List.cons_append, readDigits, if_pos hd, if_pos hd', hread]
      · rfl
      · rintro rfl
        exact absurd hd' (by decide)

/-- The digits before a point: a zero stands alone. -/
def WholePart (ds : List Char) : Prop :=
  Digits ds ∧ (ds.head? = some '0' → ds.length ≤ 1)

theorem readDecimal_append (hds : WholePart ds)
    (hs : ∀ c ∈ s.head?, c.isDigit = false ∧ c ≠ '_') : readDecimal (ds ++ s) = some (ds, s) := by
  obtain ⟨hdigits, hzero⟩ := hds
  unfold readDecimal
  split
  next rest heq =>
    cases ds with
    | nil => exact absurd rfl hdigits.1
    | cons d ds =>
      obtain ⟨rfl, rfl⟩ := List.cons.inj heq
      have hnil : ds = [] := by simpa using hzero rfl
      rw [hnil]
      rfl
  next => exact readDigits_append hdigits hs

theorem readExponent_none (hs : EndsValue s) : readExponent s = some (none, s) := by
  cases s with
  | nil => rfl
  | cons c s =>
    have hc : ¬ (c = 'e' || c = 'E') = true :=
      hs.forall_head? (P := fun c => ¬ (c = 'e' || c = 'E') = true) (by decide) (by decide)
        (by decide) c rfl
    rw [readExponent]
    exact if_neg hc

theorem readDecimalNumber_whole (hds : WholePart ds) (hs : EndsValue s) :
    readDecimalNumber negative (ds ++ s) =
      (integer? (if negative then -(digitsValue ds : Int) else digitsValue ds)).map (·, s) := by
  have hwhole := readDecimal_append hds (hs.forall_head? (by decide) (by decide) (by decide))
  have hfraction : readFraction s = some (none, s) := by
    unfold readFraction
    split
    · exact absurd (hs '.' rfl) (by decide)
    · rfl
  simp only [readDecimalNumber, hwhole, hfraction, readExponent_none hs, Option.bind_eq_bind,
    Option.bind_some, Option.isNone_none, Bool.and_self, if_true]
  cases integer? (if negative then -(digitsValue ds : Int) else digitsValue ds) <;> rfl

/-- The number that digits before and behind a point stand for. Only a positive one can be too
great. -/
def positional? (negative : Bool) (ds fs : List Char) : Option Float :=
  let x := (DecimalLiteral.mk ds fs 0).value
  if x.isInf && !negative then none else some (if negative then -x else x)

theorem readDecimalNumber_fraction (hds : WholePart ds) (hfs : Digits fs) (hs : EndsValue s) :
    readDecimalNumber negative (ds ++ '.' :: (fs ++ s)) =
      (positional? negative ds fs).map fun x => (.float x, s) := by
  have hwhole : readDecimal (ds ++ '.' :: (fs ++ s)) = some (ds, '.' :: (fs ++ s)) :=
    readDecimal_append hds (by simp)
  have hdigits := readDigits_append hfs (hs.forall_head? (by decide) (by decide) (by decide))
  simp only [readDecimalNumber, hwhole, readFraction, hdigits, readExponent_none hs,
    Option.map_some, Option.bind_eq_bind, Option.bind_some, Option.isNone_some, Bool.false_and,
    Bool.false_eq_true, if_false, Option.getD_some, Option.getD_none, positional?]
  split <;> rfl

/-! ## Numbers -/

/-- The sign of a number. -/
def signChars (negative : Bool) : List Char :=
  if negative then ['-'] else []

theorem WholePart.exists_cons (h : WholePart ds) : ∃ d t, ds = d :: t ∧ d.isDigit = true := by
  obtain ⟨d, t, rfl⟩ := List.exists_cons_of_ne_nil h.1.1
  exact ⟨d, t, rfl, h.1.2 d List.mem_cons_self⟩

theorem splitSign_signChars (hc : c.isDigit = true) (negative : Bool) (s : List Char) :
    DecimalLiteral.splitSign (signChars negative ++ c :: s) = (negative, c :: s) := by
  cases negative with
  | true => rfl
  | false =>
    rw [DecimalLiteral.splitSign.eq_def]
    split
    next heq =>
      obtain ⟨rfl, -⟩ := List.cons.inj heq
      exact absurd hc (by decide)
    next heq =>
      obtain ⟨rfl, -⟩ := List.cons.inj heq
      exact absurd hc (by decide)
    next => rfl

theorem readWordNumber_digit (hc : c.isDigit = true) (negative : Bool) (s : List Char) :
    readWordNumber negative (c :: s) = none := by
  unfold readWordNumber
  split
  next heq =>
    obtain ⟨rfl, -⟩ := List.cons.inj heq
    exact absurd hc (by decide)
  next heq =>
    obtain ⟨rfl, -⟩ := List.cons.inj heq
    exact absurd hc (by decide)
  next => rfl

/-- Digits are read as a decimal number, unless they are a zero that a base follows. -/
theorem readNumber_digits (hds : WholePart ds) (hs : ∀ c ∈ s.head?, c ≠ 'x' ∧ c ≠ 'o' ∧ c ≠ 'b') :
    readNumber (signChars negative ++ (ds ++ s)) = readDecimalNumber negative (ds ++ s) := by
  obtain ⟨d, t, rfl, hd⟩ := hds.exists_cons
  have hbase (mark : Char) (rest : List Char)
      (h : signChars negative ++ (d :: t ++ s) = '0' :: mark :: rest) :
      mark ≠ 'x' ∧ mark ≠ 'o' ∧ mark ≠ 'b' := by
    cases negative with
    | true => exact absurd (List.cons.inj h).1 (by decide)
    | false =>
      obtain ⟨rfl, hrest⟩ := List.cons.inj h
      obtain rfl : t = [] := by simpa using hds.2 rfl
      exact hs mark (by rw [show s = mark :: rest from hrest]; rfl)
  unfold readNumber
  split
  next heq => exact absurd rfl (hbase _ _ heq).1
  next heq => exact absurd rfl (hbase _ _ heq).2.1
  next heq => exact absurd rfl (hbase _ _ heq).2.2
  next =>
    rw [List.cons_append, splitSign_signChars hd]
    dsimp only
    rw [readWordNumber_digit hd]

/-! ## What is no date and no time -/

theorem of_readField {count low high n : Nat} {rest : List Char}
    (h : readField count low high s = some (n, rest)) :
    ∃ ds, s = ds ++ rest ∧ ds.length = count ∧ ∀ c ∈ ds, c.isDigit = true := by
  unfold readField at h
  dsimp only at h
  split at h
  next hcond =>
    simp only [Bool.and_eq_true, decide_eq_true_eq] at hcond
    obtain ⟨⟨⟨hlen, hall⟩, -⟩, -⟩ := hcond
    cases h
    exact ⟨s.take count, (List.take_append_drop count s).symm, hlen, by simpa using hall⟩
  next => cases h

theorem of_readMark {mark : Char} {rest : List Char} (h : readMark mark s = some rest) :
    s = mark :: rest := by
  cases s with
  | nil => cases h
  | cons c s =>
    rw [readMark] at h
    split at h
    next hc =>
      cases h
      rw [hc]
    next => cases h

/-- A field and a mark are only read where digits end with the mark. -/
theorem mark_of_readField {count low high n : Nat} {mark : Char} {rest rest' : List Char}
    (hdigit : mark.isDigit = false) (h : readField count low high s = some (n, rest))
    (hmark : readMark mark rest = some rest') :
    (s.takeWhile Char.isDigit).length = count ∧ (s.dropWhile Char.isDigit).head? = some mark := by
  obtain ⟨ds, rfl, hlen, hall⟩ := of_readField h
  obtain rfl := of_readMark hmark
  have hrun := takeWhile_append_of_head (p := Char.isDigit) (w := ds) (s := mark :: rest') hall
    (by simpa using hdigit)
  rw [hrun.1, hrun.2]
  exact ⟨hlen, rfl⟩

/-- Nothing begins as a date or a time whose first digits, if there are any, end with neither of
their marks. -/
theorem readMoment_eq_none (h : s.takeWhile Char.isDigit = [] ∨
    ∀ c ∈ (s.dropWhile Char.isDigit).head?, c ≠ '-' ∧ c ≠ ':') : readMoment s = none := by
  have hfield {count low high n : Nat} {mark : Char} {rest rest' : List Char} (hcount : 0 < count)
      (hmark : mark = '-' ∨ mark = ':') (hread : readField count low high s = some (n, rest))
      (hrest : readMark mark rest = some rest') : False := by
    have hdigit : mark.isDigit = false := by rcases hmark with rfl | rfl <;> rfl
    obtain ⟨hlen, hhead⟩ := mark_of_readField hdigit hread hrest
    rcases h with hnil | hne
    · rw [hnil] at hlen
      exact absurd hlen (Nat.ne_of_lt hcount)
    · rcases hmark with rfl | rfl
      · exact (hne _ hhead).1 rfl
      · exact (hne _ hhead).2 rfl
  have hdate : readDate s = none := by
    rw [readDate]
    cases hyear : readField 4 0 9999 s with
    | none => rfl
    | some p =>
      cases hmark : readMark '-' p.2 with
      | none => simp [hmark]
      | some rest => exact (hfield (by decide) (.inl rfl) hyear hmark).elim
  have htime : readTime s = none := by
    rw [readTime]
    cases hhour : readField 2 0 23 s with
    | none => rfl
    | some p =>
      cases hmark : readMark ':' p.2 with
      | none => simp [hmark]
      | some rest => exact (hfield (by decide) (.inr rfl) hhour hmark).elim
  rw [readMoment, hdate]
  exact htime

theorem readMoment_digits (hds : Digits ds)
    (hs : ∀ c ∈ s.head?, c.isDigit = false ∧ c ≠ '-' ∧ c ≠ ':') :
    readMoment (signChars negative ++ (ds ++ s)) = none := by
  refine readMoment_eq_none ?_
  cases negative with
  | true => exact .inl rfl
  | false =>
    refine .inr fun c hc => ?_
    rw [signChars, if_neg Bool.false_ne_true, List.nil_append,
      (takeWhile_digits hds fun c hc => (hs c hc).1).2] at hc
    exact (hs c hc).2

/-! ## Notations -/

/-- A text is the notation of a number, or of none that a document can hold, whatever ends it. -/
structure Notes (w : List Char) (answer : Option Toml) : Prop where
  head : ∃ c t, w = c :: t ∧ (c.isDigit = true ∨ c = '-' ∨ c = 'i' ∨ c = 'n')
  moment : ∀ s, EndsValue s → readMoment (w ++ s) = none
  number : ∀ s, EndsValue s → readNumber (w ++ s) = answer.map (·, s)

namespace Notes

theorem head_signChars (hds : WholePart ds) (negative : Bool) (s : List Char) :
    ∃ c t, signChars negative ++ (ds ++ s) = c :: t ∧
      (c.isDigit = true ∨ c = '-' ∨ c = 'i' ∨ c = 'n') := by
  obtain ⟨d, t, rfl, hd⟩ := hds.exists_cons
  cases negative with
  | true => exact ⟨'-', _, rfl, .inr (.inl rfl)⟩
  | false => exact ⟨d, _, rfl, .inl hd⟩

theorem whole (hds : WholePart ds) (negative : Bool) : Notes (signChars negative ++ ds)
    (integer? (if negative then -(digitsValue ds : Int) else digitsValue ds)) where
  head := by simpa using head_signChars hds negative []
  moment s hs := by
    rw [List.append_assoc]
    exact readMoment_digits hds.1 (hs.forall_head? (by decide) (by decide) (by decide))
  number s hs := by
    rw [List.append_assoc,
      readNumber_digits hds (hs.forall_head? (by decide) (by decide) (by decide)),
      readDecimalNumber_whole hds hs]

theorem fraction (hds : WholePart ds) (hfs : Digits fs) (negative : Bool) :
    Notes (signChars negative ++ (ds ++ '.' :: fs))
      ((positional? negative ds fs).map .float) where
  head := head_signChars hds negative _
  moment s hs := by
    simp only [List.append_assoc, List.cons_append]
    exact readMoment_digits hds.1 (by simp)
  number s hs := by
    simp only [List.append_assoc, List.cons_append]
    rw [readNumber_digits hds (by simp), readDecimalNumber_fraction hds hfs hs, Option.map_map]
    rfl

theorem infinity (negative : Bool) : Notes (signChars negative ++ ['i', 'n', 'f'])
    (some (.float (if negative then -Telemetry.infinity else Telemetry.infinity))) where
  head := by
    cases negative with
    | true => exact ⟨'-', _, rfl, by simp⟩
    | false => exact ⟨'i', _, rfl, by simp⟩
  moment s _ := readMoment_eq_none (.inl (by cases negative <;> rfl))
  number s _ := by cases negative <;> rfl

theorem unknown : Notes ['n', 'a', 'n'] (some (.float (Float.ofBits 0x7FF8000000000000))) where
  head := ⟨'n', _, rfl, by simp⟩
  moment _ _ := readMoment_eq_none (.inl rfl)
  number _ _ := rfl

variable {w : List Char} {answer : Option Toml}

/-- Where a number is written, a number is read. -/
theorem readValue (h : Notes w answer) (hs : EndsValue s) (fuel depth : Nat) :
    Toml.readValue (fuel + 1) depth (w ++ s) = answer.map (·, s) := by
  have hmoment := h.moment s hs
  have hnumber := h.number s hs
  obtain ⟨c, t, rfl, hc⟩ := h.head
  rw [List.cons_append] at hmoment hnumber ⊢
  rw [Toml.readValue.eq_def]
  dsimp only
  split
  case h_7 => rw [hmoment]; exact hnumber
  all_goals
    rename_i heq
    obtain ⟨rfl, -⟩ := List.cons.inj heq
    exact absurd hc (by decide)

end Notes

theorem toList_toString (n : Int) :
    (toString n).toList = signChars (decide (n < 0)) ++ Nat.toDigits 10 n.natAbs := by
  rw [Int.toString_eq_repr, Int.repr_eq_if]
  by_cases h : n < 0
  · have habs : (-n).toNat = n.natAbs := by omega
    rw [if_neg (by omega), String.toList_append, Nat.toList_repr, habs, decide_eq_true h]
    rfl
  · have habs : n.toNat = n.natAbs := by omega
    rw [if_pos (by omega), Nat.toList_repr, habs, decide_eq_false h]
    rfl

theorem wholePart_toDigits (n : Nat) : WholePart (Nat.toDigits 10 n) := by
  refine ⟨digits_toDigits n, fun hzero => ?_⟩
  rcases Nat.eq_zero_or_pos n with rfl | hpos
  · decide
  · exact absurd hzero (head?_toDigits hpos)

/-- An integer is the number that its notation is read as. -/
theorem notes_toString {n : Int} (hmin : minTicks ≤ n) (hmax : n ≤ maxTicks) :
    Notes (toString n).toList (some (.integer n)) := by
  have hnotes := Notes.whole (wholePart_toDigits n.natAbs) (decide (n < 0))
  have hvalue : (if decide (n < 0) = true then -(n.natAbs : Int) else n.natAbs) = n := by
    split
    next h => have := of_decide_eq_true h; omega
    next h => have := of_decide_eq_false (Bool.eq_false_iff.2 h); omega
  rw [digitsValue_toDigits, hvalue, integer?, if_pos ⟨hmin, hmax⟩] at hnotes
  rwa [toList_toString]

/-! ## Floating point numbers -/

theorem signChars_isNegative (x : Float) :
    (if isNegative x then "-" else "").toList = signChars (isNegative x) := by
  cases isNegative x <;> rfl

theorem wholePart_split {d : Decimal} (h : 0 < d.digits) : WholePart d.split.1 :=
  ⟨(Decimal.digits_split h).1, (Decimal.digits_split h).2.1⟩

theorem notes_positional {d : Decimal} (h : 0 < d.digits) (negative : Bool) :
    ∃ answer : Option Float, Notes (signChars negative ++ d.positional true)
      (answer.map .float) := by
  have hwhole := wholePart_split h
  have hfraction := (Decimal.digits_split h).2.2
  unfold Decimal.positional
  split
  next heq =>
    rw [heq] at hwhole
    exact ⟨_, .fraction hwhole ⟨by simp, by simp⟩ negative⟩
  next hne heq =>
    rw [heq] at hwhole hfraction
    exact ⟨_, .fraction hwhole ⟨hne, hfraction⟩ negative⟩

/-- A floating point number is written as some number is. -/
theorem notes_floatToml (x : Float) :
    ∃ answer : Option Float, Notes (floatToml x).toList (answer.map .float) := by
  unfold floatToml floatText
  dsimp only
  split
  · exact ⟨some _, .unknown⟩
  split
  · rw [String.toList_append, signChars_isNegative]
    exact ⟨some _, .infinity _⟩
  split
  · have hzero : WholePart ['0'] := wholePart_toDigits 0
    rw [String.toList_append, signChars_isNegative]
    exact ⟨_, .fraction hzero hzero.1 _⟩
  next d hd =>
    rw [String.toList_append, signChars_isNegative, String.toList_ofList]
    exact notes_positional (digits_shortestDecimal?_pos hd) _

/-- The number that a text is the notation of. -/
def float? (s : List Char) : Option Float :=
  match readNumber s with
  | some (.float x, []) => some x
  | _ => none

/-- A number that is read back from its notation as it was. -/
def Legible (x : Float) : Prop :=
  float? (floatToml x).toList = some x

instance (x : Float) : Decidable (Legible x) :=
  inferInstanceAs (Decidable (_ = _))

theorem Legible.notes {x : Float} (h : Legible x) :
    Notes (floatToml x).toList (some (.float x)) := by
  obtain ⟨answer, hnotes⟩ := notes_floatToml x
  have hread := hnotes.number [] (by simp [EndsValue])
  rw [List.append_nil] at hread
  have hx : answer = some x := by
    rw [Legible, float?, hread] at h
    cases answer with
    | none => cases h
    | some y => exact h
  rwa [hx] at hnotes

end Telemetry.Toml
