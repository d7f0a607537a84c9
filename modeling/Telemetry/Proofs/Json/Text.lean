import Telemetry.Proofs.Json.Number

/-!
# JSON texts read back

What is written is read as it was, up to one thing: control characters without a short escape are
written as code units and read as such, which stand for the same text.
-/

namespace Telemetry

/-! ## Strings -/

namespace StringPart

/-- A part as it is read from a text: a character that is written as a code unit is one. -/
def reread : StringPart → StringPart
  | .char c => if Json.escapeChar c = Json.escapeUnit c.toNat then .unit c.toNat else .char c
  | .unit n => .unit n

/-- An escape has four digits. -/
def Valid : StringPart → Prop
  | .char _ => True
  | .unit n => n < 0x10000

end StringPart

namespace Json

variable {j : Json} {parts : List StringPart} {s : List Char}

theorem hexDigit?_hexChar : ∀ n < 16, hexDigit? (hexChar n) = some n := by
  decide

theorem readString_escapeUnit {n : Nat} (h : n < 0x10000) (s : List Char) :
    readString (escapeUnit n ++ s) =
      (readString s).map fun (parts, rest) => (.unit n :: parts, rest) := by
  have hvalue : hexValue? [hexChar (n / 4096 % 16), hexChar (n / 256 % 16), hexChar (n / 16 % 16),
      hexChar (n % 16)] = some n := by
    have hdigit (m : Nat) : hexDigit? (hexChar (m % 16)) = some (m % 16) :=
      hexDigit?_hexChar _ (Nat.mod_lt m (by decide))
    simp only [hexValue?, List.foldlM_cons, List.foldlM_nil, hdigit, Option.map_some,
      Option.bind_eq_bind, Option.bind_some]
    congr 1
    omega
  simp only [escapeUnit, List.cons_append, List.nil_append, readString, hvalue]
  cases readString s <;> rfl

theorem readString_escape {c e : Char} (h : escaped? e = some c) (he : e ≠ 'u') (s : List Char) :
    readString ('\\' :: e :: s) =
      (readString s).map fun (parts, rest) => (.char c :: parts, rest) := by
  rw [readString.eq_def]
  split
  · rename_i heq
    cases heq
  · rename_i heq
    cases heq
  · rename_i heq
    cases heq
    exact absurd rfl he
  · rename_i heq
    cases heq
    rw [h]
    cases readString s <;> rfl
  · rename_i hnone heq
    cases heq
    exact absurd rfl (hnone e s rfl)

theorem readString_plain {c : Char} (hquote : c ≠ '"') (hslash : c ≠ '\\') (hc : ¬ c.toNat < 0x20)
    (s : List Char) :
    readString (c :: s) = (readString s).map fun (parts, rest) => (.char c :: parts, rest) := by
  rw [readString.eq_def]
  split <;> simp_all

/-- What a character within quotes looks like. -/
theorem escapeChar_cases (c : Char) :
    (∃ e, escapeChar c = ['\\', e] ∧ escaped? e = some c ∧ e ≠ 'u') ∨
      (escapeChar c = escapeUnit c.toNat ∧ c.toNat < 0x20) ∨
      (escapeChar c = [c] ∧ c ≠ '"' ∧ c ≠ '\\' ∧ ¬ c.toNat < 0x20) := by
  unfold escapeChar
  split
  next hquote => exact .inl ⟨'"', rfl, by rw [hquote]; rfl, by decide⟩
  split
  next hslash => exact .inl ⟨'\\', rfl, by rw [hslash]; rfl, by decide⟩
  split
  next h => exact .inl ⟨'b', rfl, by rw [h]; rfl, by decide⟩
  split
  next h => exact .inl ⟨'f', rfl, by rw [h]; rfl, by decide⟩
  split
  next h => exact .inl ⟨'n', rfl, by rw [h]; rfl, by decide⟩
  split
  next h => exact .inl ⟨'r', rfl, by rw [h]; rfl, by decide⟩
  split
  next h => exact .inl ⟨'t', rfl, by rw [h]; rfl, by decide⟩
  split
  next hc => exact .inr (.inl ⟨rfl, hc⟩)
  next hc => exact .inr (.inr ⟨rfl, ‹_›, ‹_›, hc⟩)

theorem reread_of_escapeChar_ne {c : Char} (h : escapeChar c ≠ escapeUnit c.toNat) :
    StringPart.reread (.char c) = .char c :=
  if_neg h

theorem readString_chars (p : StringPart) (hp : p.Valid) (s : List Char) :
    readString (StringPart.chars p ++ s) =
      (readString s).map fun (parts, rest) => (p.reread :: parts, rest) := by
  cases p with
  | unit n => exact readString_escapeUnit hp s
  | char c =>
    show readString (escapeChar c ++ s) = _
    rcases escapeChar_cases c with
      ⟨e, hchars, he, hne⟩ | ⟨hchars, hc⟩ | ⟨hchars, hquote, hslash, hc⟩
    · rw [reread_of_escapeChar_ne (by simp [hchars, escapeUnit]), hchars]
      exact readString_escape he hne s
    · have hread : StringPart.reread (.char c) = .unit c.toNat := if_pos hchars
      rw [hread, hchars]
      exact readString_escapeUnit (by omega) s
    · rw [reread_of_escapeChar_ne (by simp [hchars, escapeUnit]), hchars]
      exact readString_plain hquote hslash hc s

/-- Only control characters are read as code units. -/
theorem reread_char (c : Char) : StringPart.reread (.char c) = .char c ∨
    StringPart.reread (.char c) = .unit c.toNat ∧ c.toNat < 0x20 := by
  rcases escapeChar_cases c with ⟨e, hchars, -⟩ | ⟨hchars, hc⟩ | ⟨hchars, -⟩
  · exact .inl (reread_of_escapeChar_ne (by simp [hchars, escapeUnit]))
  · exact .inr ⟨if_pos hchars, hc⟩
  · exact .inl (reread_of_escapeChar_ne (by simp [hchars, escapeUnit]))

theorem readString_flatMap (hparts : ∀ p ∈ parts, p.Valid) (s : List Char) :
    readString (parts.flatMap StringPart.chars ++ '"' :: s) =
      some (parts.map StringPart.reread, s) := by
  induction parts with
  | nil => rfl
  | cons p parts ih =>
    rw [List.flatMap_cons, List.append_assoc, readString_chars p (hparts p List.mem_cons_self),
      ih fun q hq => hparts q (List.mem_cons_of_mem p hq)]
    rfl

/-! ## Trees -/

mutual

/-- A tree as it is read from its text. -/
def reread : Json → Json
  | null => null
  | bool b => bool b
  | number l => number l
  | string parts => string (parts.map StringPart.reread)
  | array items => array (rereadItems items)
  | object fields => object (rereadFields fields)

def rereadItems : List Json → List Json
  | [] => []
  | item :: items => item.reread :: rereadItems items

def rereadFields : List (List StringPart × Json) → List (List StringPart × Json)
  | [] => []
  | (key, value) :: fields => (key.map StringPart.reread, value.reread) :: rereadFields fields

end

theorem rereadItems_eq_map (items : List Json) : rereadItems items = items.map reread := by
  induction items with
  | nil => rfl
  | cons item items ih => exact congrArg (_ :: ·) ih

theorem rereadFields_eq_map (fields : List (List StringPart × Json)) :
    rereadFields fields = fields.map fun f => (f.1.map StringPart.reread, f.2.reread) := by
  induction fields with
  | nil => rfl
  | cons f fields ih => exact congrArg (_ :: ·) ih

/-- Numbers and escapes are put together by the rules. -/
inductive WellFormed : Json → Prop
  | null : WellFormed null
  | bool (b : Bool) : WellFormed (bool b)
  | number {l : NumberLiteral} (h : l.WellFormed) : WellFormed (number l)
  | string {parts : List StringPart} (h : ∀ p ∈ parts, p.Valid) : WellFormed (string parts)
  | array {items : List Json} (h : ∀ item ∈ items, WellFormed item) : WellFormed (array items)
  | object {fields : List (List StringPart × Json)} (hkeys : ∀ f ∈ fields, ∀ p ∈ f.1, p.Valid)
      (hvalues : ∀ f ∈ fields, WellFormed f.2) : WellFormed (object fields)

/-- With as much fuel as its text is long, a tree is read in front of whatever ends a number. -/
def ReadBack (j : Json) : Prop :=
  ∀ fuel s, j.chars.length ≤ fuel → EndsNumber s →
    readValue fuel (j.chars ++ s) = some (j.reread, s)

theorem skipBlanks_cons {c : Char} (h : isBlank c = false) (s : List Char) :
    skipBlanks (c :: s) = c :: s := by
  simp [skipBlanks, h]

theorem endsNumber_cons {c : Char} (h : c = ',' ∨ c = ']' ∨ c = '}') (s : List Char) :
    EndsNumber (c :: s) := by
  intro c' hc'
  obtain rfl : c = c' := Option.some.inj hc'
  rcases h with rfl | rfl | rfl <;> decide

theorem exists_chars (h : j.WellFormed) :
    ∃ c s, j.chars = c :: s ∧ isBlank c = false ∧ c ≠ ']' := by
  cases h with
  | null => exact ⟨'n', _, rfl, by decide⟩
  | bool b =>
    cases b with
    | false => exact ⟨'f', _, rfl, by decide⟩
    | true => exact ⟨'t', _, rfl, by decide⟩
  | string => exact ⟨'"', _, rfl, by decide⟩
  | @array items =>
    cases items with
    | nil => exact ⟨'[', _, rfl, by decide⟩
    | cons => exact ⟨'[', _, rfl, by decide⟩
  | @object fields =>
    cases fields with
    | nil => exact ⟨'{', _, rfl, by decide⟩
    | cons => exact ⟨'{', _, rfl, by decide⟩
  | @number l h =>
    obtain ⟨c, s, hchars, hc⟩ := h.exists_chars
    refine ⟨c, s, hchars, ?_⟩
    rcases hc with hc | rfl
    · exact ⟨isBlank_of_isDigit hc, by rintro rfl; exact absurd hc (by decide)⟩
    · decide

/-! ### Arrays -/

section Arrays

variable {fuel : Nat} {t : List Char} {item : Json} {items : List Json}

theorem readItems_last (h : readValue fuel t = some (item, ']' :: s)) :
    readItems (fuel + 1) t = some ([item], s) := by
  rw [readItems, h]
  rfl

theorem readItems_next (h : readValue fuel t = some (item, ',' :: s)) :
    readItems (fuel + 1) t =
      (readItems fuel s).map fun (items, rest) => (item :: items, rest) := by
  rw [readItems, h]
  show (readItems fuel s).bind _ = _
  cases readItems fuel s <;> rfl

theorem readItems_itemChars (h : ∀ j ∈ item :: items, j.ReadBack) (fuel : Nat)
    (hfuel : (item.chars ++ itemChars items).length ≤ fuel) (s : List Char) :
    readItems fuel (item.chars ++ itemChars items ++ s) =
      some (rereadItems (item :: items), s) := by
  induction items generalizing item fuel with
  | nil =>
    simp only [itemChars, List.length_append, List.length_singleton] at hfuel
    obtain ⟨n, rfl⟩ : ∃ n, fuel = n + 1 := ⟨fuel - 1, by omega⟩
    have hread := h item List.mem_cons_self n (']' :: s) (by omega) (endsNumber_cons (by simp) s)
    rw [List.append_assoc]
    exact readItems_last hread
  | cons next items ih =>
    simp only [itemChars, List.cons_append, List.length_append, List.length_cons] at hfuel
    obtain ⟨n, rfl⟩ : ∃ n, fuel = n + 1 := ⟨fuel - 1, by omega⟩
    have hread := h item List.mem_cons_self n (',' :: (next.chars ++ itemChars items ++ s))
      (by omega) (endsNumber_cons (by simp) _)
    have hnext : ∀ j ∈ next :: items, j.ReadBack := fun j hj => h j (List.mem_cons_of_mem item hj)
    have hrest := ih hnext n (by simp only [List.length_append]; omega)
    have htext : item.chars ++ itemChars (next :: items) ++ s =
        item.chars ++ ',' :: (next.chars ++ itemChars items ++ s) := by
      simp [itemChars]
    rw [htext, readItems_next hread, hrest]
    rfl

end Arrays

/-! ### Objects -/

section Objects

variable {fuel : Nat} {t t' : List Char} {key : List StringPart} {value : Json}
  {fields : List (List StringPart × Json)}

theorem readFields_last (hkey : readString t = some (key, ':' :: t'))
    (hvalue : readValue fuel t' = some (value, '}' :: s)) :
    readFields (fuel + 1) ('"' :: t) = some ([(key, value)], s) := by
  show (readString t).bind _ = _
  rw [hkey]
  show (readValue fuel t').bind _ = _
  rw [hvalue]
  rfl

theorem readFields_next (hkey : readString t = some (key, ':' :: t'))
    (hvalue : readValue fuel t' = some (value, ',' :: s)) :
    readFields (fuel + 1) ('"' :: t) =
      (readFields fuel s).map fun (fields, rest) => ((key, value) :: fields, rest) := by
  show (readString t).bind _ = _
  rw [hkey]
  show (readValue fuel t').bind _ = _
  rw [hvalue]
  show (readFields fuel s).bind _ = _
  cases readFields fuel s <;> rfl

theorem quoted_append (key : List StringPart) (s : List Char) :
    quoted key ++ s = '"' :: (key.flatMap StringPart.chars ++ '"' :: s) := by
  simp [quoted]

theorem readFields_fieldChars (hkeys : ∀ f ∈ (key, value) :: fields, ∀ p ∈ f.1, p.Valid)
    (hvalues : ∀ f ∈ (key, value) :: fields, f.2.ReadBack) (fuel : Nat)
    (hfuel : (quoted key ++ ':' :: value.chars ++ fieldChars fields).length ≤ fuel)
    (s : List Char) :
    readFields fuel (quoted key ++ ':' :: value.chars ++ fieldChars fields ++ s) =
      some (rereadFields ((key, value) :: fields), s) := by
  have hkey (t : List Char) := readString_flatMap (hkeys (key, value) List.mem_cons_self) t
  have hvalue : value.ReadBack := hvalues (key, value) List.mem_cons_self
  induction fields generalizing key value fuel with
  | nil =>
    simp only [fieldChars, List.length_append, List.length_cons] at hfuel
    obtain ⟨n, rfl⟩ : ∃ n, fuel = n + 1 := ⟨fuel - 1, by omega⟩
    have hread := hvalue n ('}' :: s) (by omega) (endsNumber_cons (by simp) s)
    have htext : quoted key ++ ':' :: value.chars ++ fieldChars [] ++ s =
        quoted key ++ ':' :: (value.chars ++ '}' :: s) := by
      simp [fieldChars]
    rw [htext, quoted_append, readFields_last (hkey _) hread]
    rfl
  | cons next fields ih =>
    obtain ⟨key', value'⟩ := next
    simp only [fieldChars, List.length_append, List.cons_append, List.length_cons] at hfuel
    obtain ⟨n, rfl⟩ : ∃ n, fuel = n + 1 := ⟨fuel - 1, by omega⟩
    have hread := hvalue n
      (',' :: (quoted key' ++ ':' :: value'.chars ++ fieldChars fields ++ s))
      (by omega) (endsNumber_cons (by simp) _)
    have hmem : ∀ f ∈ (key', value') :: fields, f ∈ (key, value) :: (key', value') :: fields :=
      fun f hf => List.mem_cons_of_mem _ hf
    have hrest := ih (fun f hf => hkeys f (hmem f hf)) (fun f hf => hvalues f (hmem f hf)) n
      (by simp only [List.length_append, List.length_cons]; omega)
      (readString_flatMap (hkeys _ (hmem _ List.mem_cons_self)))
      (hvalues _ (hmem _ List.mem_cons_self))
    have htext : quoted key ++ ':' :: value.chars ++ fieldChars ((key', value') :: fields) ++ s =
        quoted key ++ ':' :: (value.chars ++
          ',' :: (quoted key' ++ ':' :: value'.chars ++ fieldChars fields ++ s)) := by
      simp [fieldChars]
    rw [htext, quoted_append, readFields_next (hkey _) hread, hrest]
    rfl

end Objects

/-! ### Values -/

theorem readValue_number {l : NumberLiteral} (h : l.WellFormed) (hs : EndsNumber s) (fuel : Nat) :
    readValue (fuel + 1) (l.chars ++ s) = some (.number l, s) := by
  have hread := h.readNumber hs
  obtain ⟨c, t, hchars, hc⟩ := h.exists_chars
  rw [hchars, List.cons_append] at hread ⊢
  have hblank : isBlank c = false := by
    rcases hc with hc | rfl
    · exact isBlank_of_isDigit hc
    · decide
  rw [readValue, skipBlanks_cons hblank]
  -- Neither a digit nor a sign begins anything but a number.
  split
  case h_8 => rw [hread, Option.map_some]
  all_goals
    rename_i heq
    cases heq
  all_goals exact absurd hc (by decide)

theorem readValue_string (h : ∀ p ∈ parts, p.Valid) (fuel : Nat) (s : List Char) :
    readValue (fuel + 1) (quoted parts ++ s) =
      some (.string (parts.map StringPart.reread), s) := by
  rw [quoted_append]
  show (readString _).map _ = _
  rw [readString_flatMap h]
  rfl

theorem readValue_array {c : Char} (hblank : isBlank c = false) (hc : c ≠ ']') (fuel : Nat)
    (t : List Char) : readValue (fuel + 1) ('[' :: c :: t) =
      (readItems fuel (c :: t)).map fun (items, rest) => (.array items, rest) := by
  have hopen : isBlank '[' = false := rfl
  simp only [readValue, skipBlanks_cons hopen, skipBlanks_cons hblank]
  split
  · rename_i heq
    cases heq
    exact absurd rfl hc
  · rfl

theorem readBack_of_succ (h : j.WellFormed) (hread : ∀ n s, j.chars.length ≤ n + 1 →
    EndsNumber s → readValue (n + 1) (j.chars ++ s) = some (j.reread, s)) : j.ReadBack := by
  intro fuel s hfuel hs
  obtain ⟨c, t, hchars, -⟩ := exists_chars h
  obtain ⟨n, rfl⟩ : ∃ n, fuel = n + 1 := by
    rw [hchars, List.length_cons] at hfuel
    exact ⟨fuel - 1, by omega⟩
  exact hread n s hfuel hs

/-- The induction runs over the tree; each part is read with less fuel than the whole. -/
theorem WellFormed.readBack (h : j.WellFormed) : j.ReadBack := by
  induction h with
  | null => exact readBack_of_succ .null fun _ _ _ _ => rfl
  | bool b => exact readBack_of_succ (.bool b) fun _ _ _ _ => by cases b <;> rfl
  | number h => exact readBack_of_succ (.number h) fun n _ _ hs => readValue_number h hs n
  | string h => exact readBack_of_succ (.string h) fun n s _ _ => readValue_string h n s
  | @array items h ih =>
    refine readBack_of_succ (.array h) fun n s hfuel _ => ?_
    cases items with
    | nil => rfl
    | cons item items =>
      obtain ⟨c, t, hchars, hblank, hc⟩ := exists_chars (h item List.mem_cons_self)
      have hread := readItems_itemChars ih n
        (by simp only [chars, List.cons_append, List.length_cons] at hfuel; omega) s
      rw [hchars, List.cons_append, List.cons_append] at hread
      show readValue (n + 1) ('[' :: (item.chars ++ itemChars items ++ s)) = _
      rw [hchars, List.cons_append, List.cons_append, readValue_array hblank hc, hread]
      rfl
  | @object fields hkeys hvalues ih =>
    refine readBack_of_succ (.object hkeys hvalues) fun n s hfuel _ => ?_
    cases fields with
    | nil => rfl
    | cons field fields =>
      obtain ⟨key, value⟩ := field
      have hread := readFields_fieldChars hkeys ih n
        (by simp only [chars, List.cons_append, List.length_cons] at hfuel; omega) s
      show (readFields n (quoted key ++ ':' :: value.chars ++ fieldChars fields ++ s)).map _ = _
      rw [hread]
      rfl

/-- What is written is read back. -/
theorem WellFormed.parse?_chars (h : j.WellFormed) : parse? j.chars = some j.reread := by
  have hread := h.readBack (j.chars.length + 1) [] (Nat.le_succ _) (by simp [EndsNumber])
  rw [List.append_nil] at hread
  rw [parse?, hread]
  rfl

end Json

end Telemetry
