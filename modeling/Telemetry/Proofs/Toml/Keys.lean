import Telemetry.Proofs.Toml.Values

/-!
# Keys of documents read back

A key is written bare if it can be, and in quotes if not. The keys of a path have points between
them, which end a bare key.
-/

namespace Telemetry.Toml

variable {c : Char} {s : List Char} {key : String} {path : List String}

/-! ## Keys -/

/-- A key without quotes. -/
def BareKey (key : String) : Prop :=
  key.toList ≠ [] ∧ ∀ c ∈ key.toList, isBare c = true

theorem keyText_cases (key : String) :
    (BareKey key ∧ (keyText key).toList = key.toList) ∨
      (keyText key).toList = '"' :: (escapeFrom false 0 key.toList ++ ['"']) := by
  unfold keyText
  split
  next h =>
    simp only [Bool.and_eq_true, Bool.not_eq_true', List.all_eq_true] at h
    exact .inl ⟨⟨by simpa using h.1, h.2⟩, rfl⟩
  next => exact .inr (by simp)

theorem keyText_cons (key : String) :
    ∃ c t, (keyText key).toList = c :: t ∧ Begins c ∧ c ≠ '[' ∧ c ≠ '.' := by
  rcases keyText_cases key with ⟨⟨hne, hbare⟩, htext⟩ | htext
  · obtain ⟨c, t, hkey⟩ := List.exists_cons_of_ne_nil hne
    have hc : isBare c = true := hbare c (by rw [hkey]; exact List.mem_cons_self)
    refine ⟨c, t, htext.trans hkey, begins_of_isBare hc, ?_, ?_⟩
    all_goals
      rintro rfl
      exact absurd hc (by decide)
  · exact ⟨'"', _, htext, ⟨rfl, by decide⟩, by decide⟩

theorem skipWhite_keyText (key : String) (s : List Char) :
    skipWhite ((keyText key).toList ++ s) = (keyText key).toList ++ s := by
  obtain ⟨c, t, htext, ⟨hwhite, -⟩, -⟩ := keyText_cons key
  rw [htext]
  exact skipWhite_cons hwhite _

theorem BareKey.readKey (h : BareKey key) (hs : ∀ c ∈ s.head?, isBare c = false) :
    Toml.readKey (key.toList ++ s) = some (key, s) := by
  have hrun := takeWhile_append_of_head h.2 hs
  have hhead := forall_head?_append (s := s) h.1 h.2
  have hne : key.toList.isEmpty = false := by simpa using h.1
  unfold Toml.readKey
  split
  next heq => exact absurd (hhead '"' (by rw [heq]; rfl)) (by decide)
  next heq => exact absurd (hhead '\'' (by rw [heq]; rfl)) (by decide)
  next =>
    simp only [hrun.1, hrun.2, hne, String.ofList_toList]
    rfl

/-- A key is read back, unless what follows goes on with it. -/
theorem readKey_keyText (key : String) (hs : ∀ c ∈ s.head?, isBare c = false) :
    readKey ((keyText key).toList ++ s) = some (key, s) := by
  rcases keyText_cases key with ⟨hbare, htext⟩ | htext
  · rw [htext]
    exact hbare.readKey hs
  · have hlength := length_le_escapeFrom false 0 key.toList
    simp only [htext, List.cons_append, List.append_assoc, List.nil_append, readKey]
    rw [readBasic_escapeFrom (by simp only [List.length_append]; omega), Option.map_some]
    simp only [String.ofList_toList]

/-! ## Paths -/

/-- Keys with points between them. -/
def pathChars : List String → List Char
  | [] => []
  | [key] => (keyText key).toList
  | key :: path => (keyText key).toList ++ '.' :: pathChars path

theorem pathChars_cons (hne : path ≠ []) : ∃ c t, pathChars path = c :: t ∧ c ≠ '[' := by
  cases path with
  | nil => exact absurd rfl hne
  | cons key path =>
    obtain ⟨c, t, htext, -, hopen, -⟩ := keyText_cons key
    cases path with
    | nil => exact ⟨c, t, htext, hopen⟩
    | cons next path =>
      refine ⟨c, t ++ '.' :: pathChars (next :: path), ?_, hopen⟩
      rw [pathChars, htext, List.cons_append]
      exact List.cons_ne_nil _ _

theorem toList_intercalate_path (path : List String) :
    (".".intercalate (path.map keyText)).toList = pathChars path := by
  rw [String.toList_intercalate]
  induction path with
  | nil => rfl
  | cons key path ih =>
    cases path with
    | nil => simp [pathChars]
    | cons next path =>
      simp only [List.map_cons, List.intercalate_cons_cons, pathChars] at ih ⊢
      rw [ih]
      simp

/-- What may stand behind a path: something that goes on neither with its last key nor with a
point. -/
def EndsPath (s : List Char) : Prop :=
  (∀ c ∈ s.head?, isBare c = false) ∧ '.' ∉ (skipWhite s).head?

theorem readPath_last (hs : EndsPath s) (fuel : Nat) (key : String) :
    readPath (fuel + 1) ((keyText key).toList ++ s) = some ([key], skipWhite s) := by
  rw [readPath, skipWhite_keyText, readKey_keyText key hs.1]
  simp only [Option.bind_eq_bind, Option.bind_some]
  split
  next heq => exact absurd (by rw [heq]; rfl) hs.2
  next => rfl

theorem readPath_next (fuel : Nat) (key : String) (s : List Char) :
    readPath (fuel + 1) ((keyText key).toList ++ '.' :: s) =
      (readPath fuel s).map fun (path, rest) => (key :: path, rest) := by
  rw [readPath, skipWhite_keyText, readKey_keyText key (by simp; decide)]
  show (readPath fuel s).bind _ = _
  cases readPath fuel s <;> rfl

theorem readPath_pathChars (hs : EndsPath s) {fuel : Nat} (hne : path ≠ [])
    (hfuel : path.length ≤ fuel) :
    readPath fuel (pathChars path ++ s) = some (path, skipWhite s) := by
  induction path generalizing fuel with
  | nil => exact absurd rfl hne
  | cons key path ih =>
    obtain ⟨n, rfl⟩ : ∃ n, fuel = n + 1 :=
      ⟨fuel - 1, by simp only [List.length_cons] at hfuel; omega⟩
    cases path with
    | nil => exact readPath_last hs n key
    | cons next path =>
      rw [pathChars, List.append_assoc, List.cons_append, readPath_next,
        ih (List.cons_ne_nil _ _) (Nat.le_of_succ_le_succ hfuel)]
      · rfl
      · exact List.cons_ne_nil _ _

theorem length_le_pathChars (path : List String) : path.length ≤ (pathChars path).length := by
  induction path with
  | nil => exact Nat.zero_le _
  | cons key path ih =>
    obtain ⟨c, t, htext, -⟩ := keyText_cons key
    cases path with
    | nil => simp [pathChars, htext]
    | cons next path =>
      simp only [pathChars, List.length_append, List.length_cons] at ih ⊢
      omega

/-- A path is read back with its last key apart. -/
theorem readKeys_pathChars (hs : EndsPath s) (path : List String) (key : String)
    (hlength : path.length + 1 < depthLimit) :
    readKeys (pathChars (path ++ [key]) ++ s) = some ((path, key), skipWhite s) := by
  have hne : path ++ [key] ≠ [] := by simp
  have hfuel : (path ++ [key]).length ≤ (pathChars (path ++ [key]) ++ s).length + 1 := by
    have := length_le_pathChars (path ++ [key])
    have := (List.prefix_append (pathChars (path ++ [key])) s).length_le
    omega
  rw [readKeys, readPath_pathChars hs hne hfuel]
  simp [hlength]

end Telemetry.Toml
