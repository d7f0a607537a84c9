import Telemetry.Proofs.Toml.Numbers

/-!
# Values of documents read back

A string, a number or a truth value is read back as it was behind its key, and so is an array of
them, be it on one line or on several.
-/

namespace Telemetry.Toml

variable {c : Char} {s : List Char} {v : Toml} {items : List Toml} {fuel depth : Nat}

/-! ## Values -/

/-- A value without parts that is read back as it was. -/
def IsScalar : Toml → Prop
  | .string _ | .bool _ => True
  | .integer n => minTicks ≤ n ∧ n ≤ maxTicks
  | .float x => Legible x
  | _ => False

/-- A value that stands on the line of its key, or on the lines below if it is an array. -/
inductive OnLine : Toml → Prop
  | scalar {v : Toml} (h : v.IsScalar) : OnLine v
  | array {items : List Toml} (h : ∀ item ∈ items, item.IsScalar) : OnLine (.array items)

/-- Nothing that is passed over begins with the character, and no array ends with it. -/
def Begins (c : Char) : Prop :=
  isWhite c = false ∧ c ≠ '#' ∧ c ≠ '\n' ∧ c ≠ '\r' ∧ c ≠ ']'

theorem begins_of_isBare (h : isBare c = true) : Begins c := by
  refine ⟨?_, ?_, ?_, ?_, ?_⟩
  · cases hwhite : isWhite c with
    | false => rfl
    | true =>
      simp only [isWhite, Bool.or_eq_true, decide_eq_true_eq] at hwhite
      rcases hwhite with rfl | rfl <;> exact absurd h (by decide)
  all_goals
    rintro rfl
    exact absurd h (by decide)

theorem Notes.begins {w : List Char} {answer : Option Toml} (h : Notes w answer) :
    ∃ c t, w = c :: t ∧ Begins c := by
  obtain ⟨c, t, hw, hc⟩ := h.head
  refine ⟨c, t, hw, ?_⟩
  rcases hc with hc | rfl | rfl | rfl
  · exact begins_of_isBare (by simp [isBare, Char.isAlphanum, hc])
  all_goals exact ⟨rfl, by decide⟩

theorem quote_cons (s : String) : ∃ c t, (quote s).toList = c :: t ∧ (c = '"' ∨ c = '\'') := by
  unfold quote
  dsimp only
  split
  · exact ⟨'"', _, by simp; rfl, .inl rfl⟩
  · exact ⟨'\'', _, by simp; rfl, .inr rfl⟩
  · exact ⟨'"', _, by simp; rfl, .inl rfl⟩
  · exact ⟨'\'', _, by simp; rfl, .inr rfl⟩

theorem IsScalar.begins (h : v.IsScalar) : ∃ c t, v.valueText.toList = c :: t ∧ Begins c := by
  cases v with
  | string s =>
    obtain ⟨c, t, hquote, hc⟩ := quote_cons s
    exact ⟨c, t, hquote, by rcases hc with rfl | rfl <;> exact ⟨rfl, by decide⟩⟩
  | bool b =>
    cases b with
    | false => exact ⟨'f', _, rfl, rfl, by decide⟩
    | true => exact ⟨'t', _, rfl, rfl, by decide⟩
  | integer n => exact (notes_toString h.1 h.2).begins
  | float x => exact (Legible.notes h).begins
  | moment t => exact h.elim
  | array items => exact h.elim
  | table fields => exact h.elim

theorem IsScalar.readValue (h : v.IsScalar) (hs : EndsValue s) (fuel depth : Nat) :
    Toml.readValue (fuel + 1) depth (v.valueText.toList ++ s) = some (v, s) := by
  cases v with
  | string text =>
    have hread := readString_quote text
      (hs.forall_head? (P := fun c => c ≠ '"' ∧ c ≠ '\'') (by decide) (by decide) (by decide))
    obtain ⟨c, t, hquote, hc⟩ := quote_cons text
    show Toml.readValue (fuel + 1) depth ((quote text).toList ++ s) = _
    rw [hquote, List.cons_append] at hread ⊢
    have hvalue : Toml.readValue (fuel + 1) depth (c :: (t ++ s)) = (readString (c :: (t ++ s))).map
        (Prod.map (fun cs => .string (String.ofList cs)) id) := by
      rcases hc with rfl | rfl <;> rfl
    rw [hvalue, hread]
    simp
  | bool b => cases b <;> rfl
  | integer n => exact (notes_toString h.1 h.2).readValue hs fuel depth
  | float x => exact (Legible.notes h).readValue hs fuel depth
  | moment t => exact h.elim
  | array items => exact h.elim
  | table fields => exact h.elim

/-! ## Arrays -/

theorem skipWhite_cons (h : isWhite c = false) (s : List Char) : skipWhite (c :: s) = c :: s := by
  simp [skipWhite, h]

/-- White space alone is passed over before what is none. -/
theorem skipLines_white {w : List Char} (hw : ∀ c ∈ w, isWhite c = true)
    (hc : isWhite c = false ∧ c ≠ '#' ∧ c ≠ '\n' ∧ c ≠ '\r') (n : Nat) (s : List Char) :
    skipLines (n + 1) (w ++ c :: s) = c :: s := by
  have hskip : skipWhite (w ++ c :: s) = c :: s :=
    (takeWhile_append_of_head hw (by simpa using hc.1)).2
  have hcomment : skipComment (w ++ c :: s) = c :: s := by
    rw [skipComment, hskip]
    split
    next heq => exact absurd (List.cons.inj heq).1 hc.2.1
    next => rfl
  rw [skipLines, hcomment, readNewline_cons hc.2.2.1 hc.2.2.2]
  exact hskip

theorem skipLines_cons (hc : isWhite c = false ∧ c ≠ '#' ∧ c ≠ '\n' ∧ c ≠ '\r') (s : List Char) :
    skipLines (c :: s).length (c :: s) = c :: s :=
  skipLines_white (w := []) (by simp) hc s.length s

theorem skipLines_newline (n : Nat) (s : List Char) :
    skipLines (n + 1) ('\n' :: s) = skipLines n s :=
  rfl

/-- Behind an item an array goes on with a comma or ends. -/
theorem skipLines_separator (hc : c = ',' ∨ c = ']') (s : List Char) :
    skipLines (c :: s).length (c :: s) = c :: s :=
  skipLines_cons (by rcases hc with rfl | rfl <;> exact ⟨rfl, by decide⟩) s

theorem readItems_last (hitem : v.IsScalar) (fuel depth : Nat) (s : List Char) :
    readItems (fuel + 2) depth (v.valueText.toList ++ ']' :: s) = some ([v], s) := by
  have hread := hitem.readValue (endsValue_cons (c := ']') (by simp) s) fuel depth
  have hskip := skipLines_separator (c := ']') (.inr rfl) s
  obtain ⟨c, t, htext, hc⟩ := hitem.begins
  rw [htext, List.cons_append] at hread ⊢
  rw [readItems, hread]
  · dsimp only [Option.bind_eq_bind, Option.bind_some]
    rw [hskip]
    rfl
  · exact fun _ heq => hc.2.2.2.2 (List.cons.inj heq).1

theorem readItems_next (hitem : v.IsScalar) (fuel depth : Nat) (s : List Char) :
    readItems (fuel + 2) depth (v.valueText.toList ++ ',' :: s) =
      (readItems (fuel + 1) depth (skipLines s.length s)).map
        fun (items, rest) => (v :: items, rest) := by
  have hread := hitem.readValue (endsValue_cons (c := ',') (by simp) s) fuel depth
  have hskip := skipLines_separator (c := ',') (.inl rfl) s
  obtain ⟨c, t, htext, hc⟩ := hitem.begins
  rw [htext, List.cons_append] at hread ⊢
  rw [readItems, hread]
  · dsimp only [Option.bind_eq_bind, Option.bind_some]
    rw [hskip]
    show (readItems (fuel + 1) depth (skipLines s.length s)).bind _ = _
    cases readItems (fuel + 1) depth (skipLines s.length s) <;> rfl
  · exact fun _ heq => hc.2.2.2.2 (List.cons.inj heq).1

/-- Items on lines of their own are read from the line end before the first one. -/
theorem readItems_itemLines (h : ∀ item ∈ items, item.IsScalar) (hfuel : items.length + 1 < fuel)
    (depth : Nat) (s : List Char) {rest : List Char}
    (hrest : rest = '\n' :: ((itemLines items).toList ++ ']' :: s)) :
    readItems fuel depth (skipLines rest.length rest) = some (items, s) := by
  induction items generalizing fuel rest with
  | nil =>
    obtain ⟨n, rfl⟩ : ∃ n, fuel = n + 1 := ⟨fuel - 1, by omega⟩
    have hskip : skipLines rest.length rest = ']' :: s := by
      rw [hrest]
      exact skipLines_separator (.inr rfl) s
    rw [hskip, readItems]
  | cons item items ih =>
    obtain ⟨n, rfl⟩ : ∃ n, fuel = n + 2 := ⟨fuel - 2, by omega⟩
    have hitem := h item List.mem_cons_self
    obtain ⟨c, t, htext, hwhite, hcomment, hline, hreturn, -⟩ := hitem.begins
    have htail : ((itemLines (item :: items)).toList ++ ']' :: s) = [' ', ' ', ' ', ' '] ++
        (item.valueText.toList ++ ',' :: '\n' :: ((itemLines items).toList ++ ']' :: s)) := by
      simp [itemLines]
    have hskip : skipLines rest.length rest =
        item.valueText.toList ++ ',' :: '\n' :: ((itemLines items).toList ++ ']' :: s) := by
      rw [hrest, htail, htext, List.length_cons, skipLines_newline]
      exact skipLines_white (by simp [isWhite]) ⟨hwhite, hcomment, hline, hreturn⟩ _ _
    rw [hskip, readItems_next hitem, ih (fun v hv => h v (List.mem_cons_of_mem item hv))
      (by simp only [List.length_cons] at hfuel; omega) rfl]
    rfl

theorem length_le_itemLines (items : List Toml) :
    items.length ≤ (itemLines items).toList.length := by
  induction items with
  | nil => exact Nat.zero_le _
  | cons item items ih =>
    simp only [itemLines, String.toList_append, List.length_append, List.length_cons]
    have : 4 = ("    " : String).toList.length := rfl
    omega

/-- An array is read behind its opening bracket. -/
theorem readValue_array (hdepth : 1 < depth) (fuel : Nat) (s : List Char) :
    readValue (fuel + 1) depth ('[' :: s) =
      (readItems fuel (depth - 1) (skipLines s.length s)).map
        fun (items, rest) => (.array items, rest) := by
  rw [readValue, if_neg (by omega)]

theorem readValue_items (h : ∀ item ∈ items, item.IsScalar) (hdepth : 1 < depth)
    (hfuel : (array items).valueText.toList.length ≤ fuel) (s : List Char) :
    readValue (fuel + 1) depth ((array items).valueText.toList ++ s) =
      some (.array items, s) := by
  match items, h with
  | [], _ =>
    obtain ⟨n, rfl⟩ : ∃ n, fuel = n + 1 := ⟨fuel - 1, by simp [valueText] at hfuel; omega⟩
    show readValue (n + 2) depth ('[' :: ']' :: s) = _
    rw [readValue_array hdepth, skipLines_separator (.inr rfl), readItems]
    rfl
  | [item], h =>
    have hitem := h item List.mem_cons_self
    obtain ⟨c, t, htext, hwhite, hcomment, hline, hreturn, -⟩ := hitem.begins
    obtain ⟨n, rfl⟩ : ∃ n, fuel = n + 2 :=
      ⟨fuel - 2, by simp [valueText, htext] at hfuel; omega⟩
    have hlist : (array [item]).valueText.toList ++ s =
        '[' :: (item.valueText.toList ++ ']' :: s) := by
      simp [valueText]
    have hskip : skipLines (item.valueText.toList ++ ']' :: s).length
        (item.valueText.toList ++ ']' :: s) = item.valueText.toList ++ ']' :: s := by
      rw [htext]
      exact skipLines_cons ⟨hwhite, hcomment, hline, hreturn⟩ _
    rw [hlist, readValue_array hdepth, hskip, readItems_last hitem]
    rfl
  | item :: next :: items, h =>
    have hlist : (array (item :: next :: items)).valueText.toList ++ s =
        '[' :: '\n' :: ((itemLines (item :: next :: items)).toList ++ ']' :: s) := by
      simp [valueText]
    have hlength := length_le_itemLines (item :: next :: items)
    rw [hlist, readValue_array hdepth, readItems_itemLines h _ _ _ rfl]
    · rfl
    · simp only [valueText, String.toList_append, List.length_append] at hfuel
      have : ("[\n" : String).toList.length = 2 := rfl
      omega

theorem OnLine.begins (h : v.OnLine) : ∃ c t, v.valueText.toList = c :: t ∧ Begins c := by
  cases h with
  | scalar h => exact h.begins
  | @array items =>
    match items with
    | [] => exact ⟨'[', [']'], rfl, rfl, by decide⟩
    | [item] => exact ⟨'[', _, by simp [valueText]; rfl, rfl, by decide⟩
    | item :: next :: items => exact ⟨'[', _, by simp [valueText]; rfl, rfl, by decide⟩

/-- A value that stands on a line is read back as it was. -/
theorem OnLine.readValue (h : v.OnLine) (hs : EndsValue s) (hdepth : 1 < depth)
    (hfuel : v.valueText.toList.length < fuel) :
    Toml.readValue fuel depth (v.valueText.toList ++ s) = some (v, s) := by
  obtain ⟨n, rfl⟩ : ∃ n, fuel = n + 1 := ⟨fuel - 1, by omega⟩
  cases h with
  | scalar h => exact h.readValue hs n depth
  | array h => exact readValue_items h hdepth (Nat.le_of_lt_succ hfuel) s

end Telemetry.Toml
