/-!
# Attributes

Free text attached to samples under keys. The entries are kept in the order of their keys, so that
equal attributes are equal values.
-/

namespace Telemetry

/-- A finite map from keys to texts, ascending by key. -/
structure Attributes where
  entries : List (String × String)
  sorted : entries.Pairwise (fun a b => a.1 < b.1)
deriving DecidableEq

namespace Attributes

def empty : Attributes := ⟨[], .nil⟩

instance : Inhabited Attributes := ⟨empty⟩

/-- Puts an entry in its place among entries ascending by key. -/
def place (k v : String) : List (String × String) → List (String × String)
  | [] => [(k, v)]
  | (k', v') :: rest =>
    if k < k' then (k, v) :: (k', v') :: rest
    else if k = k' then (k, v) :: rest
    else (k', v') :: place k v rest

theorem mem_place {k v : String} {e : String × String} {l : List (String × String)}
    (h : e ∈ place k v l) : e = (k, v) ∨ e ∈ l := by
  induction l with
  | nil => simpa [place] using h
  | cons a rest ih =>
    simp only [place] at h
    split at h
    · simpa using h
    · split at h
      · rcases List.mem_cons.1 h with h | h
        · exact .inl h
        · exact .inr (List.mem_cons_of_mem _ h)
      · rcases List.mem_cons.1 h with h | h
        · exact .inr (h ▸ List.mem_cons_self)
        · exact (ih h).imp_right (List.mem_cons_of_mem _)

theorem sorted_place {k v : String} {l : List (String × String)}
    (h : l.Pairwise (fun a b => a.1 < b.1)) :
    (place k v l).Pairwise (fun a b => a.1 < b.1) := by
  induction l with
  | nil => simp [place]
  | cons a rest ih =>
    obtain ⟨hhead, hrest⟩ := List.pairwise_cons.1 h
    simp only [place]
    split
    next hlt =>
      refine List.pairwise_cons.2 ⟨fun e he => ?_, h⟩
      rcases List.mem_cons.1 he with he | he
      · exact he ▸ hlt
      · exact String.lt_trans hlt (hhead e he)
    next hge =>
      split
      next heq =>
        exact List.pairwise_cons.2 ⟨fun e he => heq ▸ hhead e he, hrest⟩
      next hne =>
        refine List.pairwise_cons.2 ⟨fun e he => ?_, ih hrest⟩
        rcases mem_place he with he | he
        · have hle : a.1 ≤ k := String.not_lt.1 hge
          exact he ▸ Decidable.byContradiction fun hn =>
            hne (String.le_antisymm (String.not_lt.1 hn) hle)
        · exact hhead e he

/-- Sets the text under a key. -/
def insert (a : Attributes) (k v : String) : Attributes :=
  ⟨place k v a.entries, sorted_place a.sorted⟩

def ofList (l : List (String × String)) : Attributes :=
  l.foldl (fun a e => a.insert e.1 e.2) empty

def get? (a : Attributes) (k : String) : Option String :=
  (a.entries.find? (·.1 = k)).map (·.2)

/-- All entries of both; where both have a key, the text of `b` stands. -/
def merge (a b : Attributes) : Attributes :=
  b.entries.foldl (fun a e => a.insert e.1 e.2) a

/-- Merges what may be missing: nothing adds nothing, and nothing stays nothing until something
is added. -/
def merge? (target addition : Option Attributes) : Option Attributes :=
  match addition with
  | none => target
  | some b => some ((target.getD empty).merge b)

end Attributes

end Telemetry
