import Mathlib.Data.List.Forall2
import Telemetry.Proofs.Row

/-!
# Merging attributes

A text is looked up among the entries of a map, and of a merge the texts of the second map stand.
So what several samples have attached, merged one after the other, shows under each key the text of
the last of them that has the key, and it makes no difference whether they are merged at once or in
groups that are merged afterwards.
-/

namespace Telemetry

namespace Attributes

variable {a : Attributes} {l : List (String × String)} {k v : String}

theorem eq_of_entries {b : Attributes} (h : a.entries = b.entries) : a = b := by
  obtain ⟨entries, sorted⟩ := a
  obtain rfl : entries = b.entries := h
  rfl

theorem place_of_lt (h : ∀ e ∈ l, e.1 < k) : place k v l = l ++ [(k, v)] := by
  induction l with
  | nil => rfl
  | cons e rest ih =>
    have he : e.1 < k := h e List.mem_cons_self
    have hrest : ∀ e ∈ rest, e.1 < k := fun e he => h e (List.mem_cons_of_mem _ he)
    rw [place, if_neg (String.lt_asymm he), if_neg (String.ne_of_lt he).symm, ih hrest]
    rfl

/-- The induction runs over the entries that are added; each of them goes behind all others. -/
theorem entries_foldl_insert (h : (a.entries ++ l).Pairwise (fun e e' => e.1 < e'.1)) :
    (l.foldl (fun a e => a.insert e.1 e.2) a).entries = a.entries ++ l := by
  induction l generalizing a with
  | nil => simp
  | cons e rest ih =>
    have hinsert : (a.insert e.1 e.2).entries = a.entries ++ [e] :=
      place_of_lt fun e' he' => (List.pairwise_append.1 h).2.2 e' he' e List.mem_cons_self
    rw [List.foldl_cons, ih (by rw [hinsert]; simpa using h), hinsert]
    simp

theorem merge?_none (a : Option Attributes) : merge? none a = a := by
  cases a with
  | none => rfl
  | some a =>
    have hentries : (empty.merge a).entries = a.entries := entries_foldl_insert a.sorted
    show some (empty.merge a) = some a
    rw [eq_of_entries hentries]

/-! ## Looking up -/

/-- The entry that is placed is found under its key, and every other one as before. -/
theorem find?_place (k v k' : String) (l : List (String × String)) :
    (place k v l).find? (·.1 = k') =
      if k = k' then some (k, v) else l.find? (·.1 = k') := by
  induction l with
  | nil => by_cases h : k = k' <;> simp [place, h]
  | cons e rest ih =>
    by_cases h : k = k' <;> grind [place]

theorem get?_insert (a : Attributes) (k v k' : String) :
    (a.insert k v).get? k' = if k = k' then some v else a.get? k' := by
  unfold get? insert
  rw [find?_place]
  split <;> rfl

theorem nodup_entries (a : Attributes) : a.entries.Nodup :=
  a.sorted.imp fun hlt heq => String.ne_of_lt hlt (congrArg Prod.fst heq)

theorem get?_eq_some_iff : a.get? k = some v ↔ (k, v) ∈ a.entries := by
  unfold get?
  rw [Option.map_eq_some_iff]
  constructor
  · rintro ⟨e, he, rfl⟩
    obtain rfl : e.1 = k := by simpa using List.find?_some he
    exact List.mem_of_find?_eq_some he
  · intro hmem
    have hkeys : (a.entries.map (·.1)).Nodup :=
      List.pairwise_map.2 (a.sorted.imp fun hlt => String.ne_of_lt hlt)
    exact ⟨(k, v), Row.find?_key (·.1) hkeys hmem, rfl⟩

theorem get?_foldl_insert (h : l.Pairwise fun e e' => e.1 < e'.1) (a : Attributes) (k : String) :
    (l.foldl (fun a e => a.insert e.1 e.2) a).get? k =
      ((l.find? (·.1 = k)).map (·.2)).or (a.get? k) := by
  induction l generalizing a with
  | nil => rfl
  | cons e rest ih =>
    obtain ⟨hfirst, hrest⟩ := List.pairwise_cons.1 h
    rw [List.foldl_cons, ih hrest, get?_insert]
    by_cases he : e.1 = k
    · have hnone : rest.find? (·.1 = k) = none := by
        rw [List.find?_eq_none]
        intro e' he'
        simpa [he] using (String.ne_of_lt (hfirst e' he')).symm
      simp [he, hnone]
    · simp [he]

theorem get?_merge (a b : Attributes) (k : String) :
    (a.merge b).get? k = (b.get? k).or (a.get? k) :=
  get?_foldl_insert b.sorted a k

/-- Maps that show the same under every key are the same. -/
theorem eq_of_get? {b : Attributes} (h : ∀ k, a.get? k = b.get? k) : a = b := by
  have hmem : ∀ e, e ∈ a.entries ↔ e ∈ b.entries := fun (k, v) => by
    rw [← get?_eq_some_iff, ← get?_eq_some_iff, h]
  have hperm : a.entries.Perm b.entries :=
    (List.perm_ext_iff_of_nodup (nodup_entries a) (nodup_entries b)).2 hmem
  refine eq_of_entries (hperm.eq_of_pairwise (fun e e' _ _ hlt hgt => ?_) a.sorted b.sorted)
  exact absurd hgt (String.lt_asymm hlt)

/-! ## Merging one after the other -/

/-- What a list of attributes amounts to where later ones overwrite earlier ones: there are some if
any of the list are there, and each key shows the text of the last of them that has it. -/
structure Merged (l : List (Option Attributes)) (a : Option Attributes) : Prop where
  isSome_iff : a.isSome ↔ ∃ b, some b ∈ l
  get?_eq : ∀ k, a.bind (·.get? k) = l.reverse.findSome? (·.bind (·.get? k))

section Merged

variable {as bs : List (Option Attributes)} {a b : Option Attributes}

theorem get?_merge? (a b : Option Attributes) (k : String) :
    (merge? a b).bind (·.get? k) = (b.bind (·.get? k)).or (a.bind (·.get? k)) := by
  cases b with
  | none => rfl
  | some b =>
    cases a with
    | none =>
      rw [merge?_none]
      exact Option.or_none.symm
    | some a => exact get?_merge a b k

theorem isSome_merge? (a b : Option Attributes) : (merge? a b).isSome = (a.isSome || b.isSome) := by
  cases b <;> simp [merge?]

/-- There is only one such merge. -/
theorem Merged.unique (h : Merged as a) (h' : Merged as b) : a = b := by
  cases a with
  | none =>
    cases b with
    | none => rfl
    | some b => exact nomatch h.isSome_iff.2 (h'.isSome_iff.1 rfl)
  | some a =>
    cases b with
    | none => exact nomatch h'.isSome_iff.2 (h.isSome_iff.1 rfl)
    | some b => exact congrArg some (eq_of_get? fun k => (h.get?_eq k).trans (h'.get?_eq k).symm)

theorem Merged.nil : Merged [] none :=
  ⟨by simp, fun _ => rfl⟩

theorem Merged.singleton (a : Option Attributes) : Merged [a] a := by
  refine ⟨?_, fun k => ?_⟩
  · cases a <;> simp
  · cases h : a.bind (·.get? k) <;> simp [h]

theorem Merged.append (h : Merged as a) (h' : Merged bs b) : Merged (as ++ bs) (merge? a b) := by
  refine ⟨?_, fun k => ?_⟩
  · rw [isSome_merge?, Bool.or_eq_true, h.isSome_iff, h'.isSome_iff]
    simp only [List.mem_append, exists_or]
  · rw [get?_merge?, h.get?_eq, h'.get?_eq, List.reverse_append, List.findSome?_append]

theorem Merged.foldl (h : Merged as a) (bs : List (Option Attributes)) :
    Merged (as ++ bs) (bs.foldl merge? a) := by
  induction bs generalizing as a with
  | nil => simpa using h
  | cons b rest ih => simpa using ih (h.append (.singleton b))

/-- It makes no difference whether attributes are merged at once or in groups. -/
theorem Merged.flatten {groups : List (List (Option Attributes))} (h : Merged as a)
    (hgroups : List.Forall₂ Merged groups bs) :
    Merged (as ++ groups.flatten) (bs.foldl merge? a) := by
  induction hgroups generalizing as a with
  | nil => simpa using h
  | cons hgroup _ ih => simpa using ih (h.append hgroup)

end Merged

end Attributes

end Telemetry
