import Telemetry.Proofs.Attributes
import Telemetry.Proofs.Points.Batch

/-!
# What samples attach to points

A note is what one sample has attached. Of the notes of a metric, in the order of time, a bucket
takes those that lie within it, the very first note excepted, and behind them the next one, if the
bucket is not yet at its end and nothing tells that the last sample is stale. The point of a bucket
shows the merge of what it takes.

Only the note behind the bucket can lie outside of it. Such a note is taken by every bucket from the
last sample on to its own.
-/

namespace Telemetry

/-- When a sample was taken, and what was attached to it. -/
structure Note where
  timestamp : Timestamp
  attributes : Option Attributes

namespace Note

def ofSample (s : Sample) : Note :=
  ⟨s.timestamp, s.attributes⟩

def nanos (n : Note) : Int :=
  n.timestamp.nanos

end Note

/-- The notes of a metric, in the order of their rows. -/
def notesOf (metric : String) (rows : List (Row Value)) : List Note :=
  (samplesOf metric rows).map .ofSample

namespace Timeline

/-- The notes of the bucket. The very first sample adds none. -/
def inside (f g : Int) (notes : List Note) : List Note :=
  notes.tail.filter fun n => f < n.nanos ∧ n.nanos ≤ g

/-- The note of the next sample, where the last one falls short of the end of the bucket and no row
in between comes a heartbeat or more behind the last one. -/
def carried? (g heartbeat : Int) (notes : List Note) (rows : List Int) : Option Note :=
  match (notes.filter (·.nanos ≤ g)).getLast?, notes.find? (g < ·.nanos) with
  | some last, some next =>
    if last.nanos < g ∧ ∀ row ∈ rows, g < row → row < next.nanos → ¬ last.nanos + heartbeat ≤ row
    then some next
    else none
  | _, _ => none

/-- What the bucket from `f` to `g` takes, in the order in which it is merged. -/
def contributing (f g heartbeat : Int) (notes : List Note) (rows : List Int) : List Note :=
  inside f g notes ++ (carried? g heartbeat notes rows).toList

section

variable {f g c heartbeat : Int} {notes later : List Note} {rows : List Int} {n : Note}

theorem inside_append (hle : ∀ n ∈ notes, n.nanos ≤ g) (hlt : ∀ n ∈ later, g < n.nanos) :
    inside f g (notes ++ later) = notes.tail.filter (f < ·.nanos) := by
  have hlater : ∀ l ⊆ later, l.filter (fun n => f < n.nanos ∧ n.nanos ≤ g) = [] := by
    intro l hsub
    rw [List.filter_eq_nil_iff]
    grind
  cases notes with
  | nil => exact hlater later.tail (fun _ => List.mem_of_mem_tail)
  | cons first rest =>
    rw [inside, List.cons_append, List.tail_cons, List.filter_append,
      hlater later (List.Subset.refl _), List.append_nil]
    apply List.filter_congr
    grind

theorem carried?_append (hle : ∀ n ∈ notes, n.nanos ≤ g) (hlt : ∀ n ∈ later, g < n.nanos) :
    carried? g heartbeat (notes ++ later) rows =
      match notes.getLast?, later.head? with
      | some last, some next =>
        if last.nanos < g ∧
          ∀ row ∈ rows, g < row → row < next.nanos → ¬ last.nanos + heartbeat ≤ row
        then some next
        else none
      | _, _ => none := by
  rw [carried?, filter_append_of_le hle hlt, find?_append_of_le hle hlt]

theorem forall_lt_of_head (hsorted : (n :: later).Pairwise fun n n' => n.nanos < n'.nanos)
    (hn : g < n.nanos) : ∀ n' ∈ n :: later, g < n'.nanos := by
  intro n' hn'
  rcases List.mem_cons.1 hn' with rfl | hmem
  · exact hn
  · exact hn.trans ((List.pairwise_cons.1 hsorted).1 n' hmem)

/-- The note that is taken from behind the bucket follows the last one that is not later. -/
theorem carried?_eq_some_iff (hsorted : notes.Pairwise fun n n' => n.nanos < n'.nanos) :
    carried? g heartbeat notes rows = some n ↔
      ∃ before last behind, notes = before ++ last :: n :: behind ∧
        last.nanos < g ∧ g < n.nanos ∧
        ∀ row ∈ rows, g < row → row < n.nanos → ¬ last.nanos + heartbeat ≤ row := by
  constructor
  · intro h
    unfold carried? at h
    split at h
    case h_2 => cases h
    case h_1 last next hlast hnext =>
      obtain ⟨⟨hlt, hfresh⟩, hn⟩ := Option.ite_none_right_eq_some.1 h
      cases hn
      obtain ⟨hgn, early, behind, rfl, hearly⟩ := List.find?_eq_some_iff_append.1 hnext
      obtain ⟨-, hlater, -⟩ := List.pairwise_append.1 hsorted
      have hgn : g < n.nanos := by simpa using hgn
      have hearly : ∀ n' ∈ early, n'.nanos ≤ g := by simpa using hearly
      rw [filter_append_of_le hearly (forall_lt_of_head hlater hgn)] at hlast
      obtain ⟨before, rfl⟩ := List.getLast?_eq_some_iff.1 hlast
      exact ⟨before, last, behind, by simp, hlt, hgn, hfresh⟩
  · rintro ⟨before, last, behind, rfl, hlt, hgn, hfresh⟩
    rw [List.append_cons] at hsorted ⊢
    obtain ⟨hearly, hlater, -⟩ := List.pairwise_append.1 hsorted
    obtain ⟨-, -, hbefore⟩ := List.pairwise_append.1 hearly
    have hle : ∀ n' ∈ before ++ [last], n'.nanos ≤ g := by
      intro n' hn'
      rcases List.mem_append.1 hn' with hmem | hmem
      · exact ((hbefore n' hmem last (List.mem_singleton_self _)).trans hlt).le
      · exact List.mem_singleton.1 hmem ▸ hlt.le
    rw [carried?_append hle (forall_lt_of_head hlater hgn), List.getLast?_concat, List.head?_cons]
    exact if_pos ⟨hlt, hfresh⟩

/-- Such a note is taken by every later bucket that ends before it. -/
theorem carried?_of_le (hsorted : notes.Pairwise fun n n' => n.nanos < n'.nanos)
    (h : carried? g heartbeat notes rows = some n) (hgc : g ≤ c) (hc : c < n.nanos) :
    carried? c heartbeat notes rows = some n := by
  rw [carried?_eq_some_iff hsorted] at h ⊢
  obtain ⟨before, last, behind, hnotes, hlt, -, hfresh⟩ := h
  refine ⟨before, last, behind, hnotes, by omega, hc, ?_⟩
  intro row hrow hlo hhi
  exact hfresh row hrow (by omega) hhi

/-- What a bucket takes is not the very first note, and it is later than the bucket's beginning. If
it is later than the end as well, it is the note that is taken from behind the bucket. -/
theorem of_mem_contributing (hsorted : notes.Pairwise fun n n' => n.nanos < n'.nanos)
    (hfg : f < g) (hn : n ∈ contributing f g heartbeat notes rows) :
    n ∈ notes.tail ∧ f < n.nanos ∧ (g < n.nanos → carried? g heartbeat notes rows = some n) := by
  rcases List.mem_append.1 hn with hin | hcarried
  · obtain ⟨hmem, hbounds⟩ := List.mem_filter.1 hin
    have hbounds : f < n.nanos ∧ n.nanos ≤ g := by simpa using hbounds
    exact ⟨hmem, hbounds.1, fun hgn => by omega⟩
  · have hcarried : carried? g heartbeat notes rows = some n := by simpa using hcarried
    obtain ⟨before, last, behind, rfl, -, hgn, -⟩ := (carried?_eq_some_iff hsorted).1 hcarried
    refine ⟨?_, by omega, fun _ => hcarried⟩
    cases before <;> simp

end

end Timeline

/-! ## Coverage -/

namespace Coverage

variable {c : Coverage} {floor : Timestamp} {heartbeat : Duration} {s : Sample}

@[simp] theorem attributes_credit (c : Coverage) (millis : Int) (known : Bool) (x : Float) :
    (c.credit millis known x).attributes = c.attributes := by
  unfold credit
  split <;> rfl

theorem attributes_advance {last : Timestamp} (hlast : c.last = some last) :
    (c.advance floor heartbeat s).attributes =
      if floor < s.timestamp then Attributes.merge? c.attributes s.attributes
      else c.attributes := by
  unfold advance
  rw [hlast]
  dsimp only
  split <;> split <;> simp [attach]

/-- The induction runs over the samples behind the one that was taken last. -/
theorem attributes_foldl {last : Timestamp} (hlast : c.last = some last) (samples : List Sample) :
    (samples.foldl (fun c s => c.advance floor heartbeat s) c).attributes =
      ((samples.filter (floor < ·.timestamp)).map (·.attributes)).foldl Attributes.merge?
        c.attributes := by
  induction samples generalizing c last with
  | nil => rfl
  | cons s rest ih =>
    rw [List.foldl_cons, ih last_advance, attributes_advance hlast]
    by_cases hs : floor < s.timestamp <;> simp [hs]

/-- The very first sample attaches nothing. -/
theorem attributes_foldl_empty (samples : List Sample) :
    (samples.foldl (fun (c : Coverage) s => c.advance floor heartbeat s) {}).attributes =
      ((samples.tail.filter (floor < ·.timestamp)).map (·.attributes)).foldl Attributes.merge?
        none := by
  cases samples with
  | nil => rfl
  | cons s rest =>
    have hfirst : ({} : Coverage).advance floor heartbeat s = { last := some s.timestamp } := rfl
    rw [List.foldl_cons, hfirst]
    exact attributes_foldl rfl rest

end Coverage

/-! ## Closing a bucket -/

section Close

variable {ds : Datasource} {rows : List (Row Value)} {floor ceiling horizon : Timestamp}
  {metric : String} {s : Sample}

/-- The next sample is found unless a row before it comes at the horizon or later. -/
theorem CarryOver.among_eq_found_iff (hrows : ∀ row ∈ rows, row.Stamped)
    (hasc : Row.Ascending rows) :
    CarryOver.among metric horizon rows = .found s ↔
      (samplesOf metric rows).head? = some s ∧
        ∀ row ∈ rows, row.timestamp < s.timestamp → ¬ horizon ≤ row.timestamp := by
  induction rows with
  | nil => simp [CarryOver.among, samplesOf]
  | cons row rest ih =>
    obtain ⟨hfirst, hrest⟩ := List.pairwise_cons.1 hasc
    obtain ⟨hrow, hstamped⟩ := List.forall_mem_cons.1 hrows
    rw [CarryOver.among_cons, samplesOf_cons]
    cases hget : row.get? metric with
    | some next =>
      have hnext : next.timestamp.nanos = row.timestamp.nanos := hrow next (Row.mem_of_get? hget)
      have hearliest : ∀ row' ∈ row :: rest, ¬ row'.timestamp < next.timestamp := by
        rw [List.forall_mem_cons]
        simp only [Timestamp.lt_iff] at hfirst ⊢
        exact ⟨by omega, fun row' hrow' => by have := hfirst row' hrow'; omega⟩
      constructor
      · rintro ⟨⟩
        exact ⟨rfl, fun row' hrow' hlt => absurd hlt (hearliest row' hrow')⟩
      · rintro ⟨⟨⟩, -⟩
        rfl
    | none =>
      rw [Option.toList_none, List.nil_append, List.forall_mem_cons]
      by_cases hle : horizon ≤ row.timestamp
      · simp only [if_pos hle]
        constructor
        · rintro ⟨⟩
        · rintro ⟨hhead, hlapsed, -⟩
          obtain ⟨row', hrow', hnanos⟩ :=
            nanos_of_mem_samplesOf hstamped (List.mem_of_mem_head? hhead)
          have hlt := hfirst row' hrow'
          rw [Timestamp.lt_iff] at hlt hlapsed
          exact absurd hle (hlapsed (by omega))
      · simpa [hle] using ih hstamped hrest

theorem CarryOver.among_after_eq_found_iff (hrows : ∀ row ∈ rows, row.Stamped)
    (hasc : Row.Ascending rows) (metric : String) (horizon ceiling : Timestamp) (s : Sample) :
    CarryOver.among metric horizon (Row.after ceiling rows) = .found s ↔
      (samplesOf metric (Row.after ceiling rows)).head? = some s ∧
        ∀ row ∈ rows.map (·.timestamp.nanos), ceiling.nanos < row → row < s.timestamp.nanos →
          ¬ horizon.nanos ≤ row := by
  rw [among_eq_found_iff (fun row hrow => hrows row (Row.after_subset _ _ hrow)) hasc.after]
  simp only [hasc.mem_after_iff, List.forall_mem_map, and_imp]
  rfl

theorem notesOf_cons (metric : String) (row : Row Value) (rows : List (Row Value)) :
    notesOf metric (row :: rows) =
      ((row.get? metric).map .ofSample).toList ++ notesOf metric rows := by
  rw [notesOf, samplesOf_cons, List.map_append]
  cases row.get? metric <;> rfl

theorem notesOf_split (metric : String) (c : Timestamp) (rows : List (Row Value)) :
    notesOf metric rows =
      notesOf metric (Row.upTo c rows) ++ notesOf metric (Row.after c rows) := by
  rw [notesOf, samplesOf_split metric c rows, List.map_append]
  rfl

theorem pairwise_notesOf (metric : String) (hrows : ∀ row ∈ rows, row.Stamped)
    (hasc : Row.Ascending rows) :
    (notesOf metric rows).Pairwise fun n n' => n.nanos < n'.nanos :=
  List.pairwise_map.2 (pairwise_samplesOf metric hrows hasc)

theorem nanos_le_of_mem_upTo (hrows : ∀ row ∈ rows, row.Stamped) :
    ∀ n ∈ notesOf metric (Row.upTo ceiling rows), n.nanos ≤ ceiling.nanos :=
  List.forall_mem_map.2 (le_of_mem_samplesOf_upTo hrows)

theorem lt_nanos_of_mem_after (hrows : ∀ row ∈ rows, row.Stamped) (hasc : Row.Ascending rows) :
    ∀ n ∈ notesOf metric (Row.after ceiling rows), ceiling.nanos < n.nanos :=
  List.forall_mem_map.2 (lt_of_mem_samplesOf_after hrows hasc)

namespace Track

theorem attributes_complete_of_found {t : Track} {last : Timestamp}
    (hlast : t.coverage.last = some last) (hlt : last < ceiling)
    (hnext : .among t.datasource.source (last + t.datasource.heartbeat) rows =
      CarryOver.found s) :
    (t.complete floor ceiling rows).coverage.attributes =
      Attributes.merge? t.coverage.attributes s.attributes := by
  have hnot : ¬ ceiling ≤ last := Int.not_le.2 hlt
  simp [complete, hlast, hnot, hnext, Resampling.carry, Coverage.attach]

theorem attributes_complete_of_not_found {t : Track}
    (hnext : ∀ last ∈ t.coverage.last, last < ceiling → ∀ s,
      .among t.datasource.source (last + t.datasource.heartbeat) rows ≠ CarryOver.found s) :
    (t.complete floor ceiling rows).coverage.attributes = t.coverage.attributes := by
  cases hlast : t.coverage.last with
  | none => rw [complete, hlast]
  | some last =>
    by_cases hle : ceiling ≤ last
    · simp [complete, hlast, hle]
    · have hnone := hnext last hlast (Int.not_le.1 hle)
      cases hamong : CarryOver.among t.datasource.source (last + t.datasource.heartbeat) rows with
      | found s => exact absurd hamong (hnone s)
      | stale | ended => simp [complete, hlast, hle, hamong, Resampling.carry]

theorem merged_absorb (ds : Datasource) (hrows : ∀ row ∈ rows, row.Stamped)
    (hasc : Row.Ascending rows) (floor ceiling : Timestamp) :
    Attributes.Merged
      ((Timeline.inside floor.nanos ceiling.nanos (notesOf ds.source rows)).map (·.attributes))
      ((⟨ds, {}⟩ : Track).absorb floor (Row.upTo ceiling rows)).coverage.attributes := by
  rw [notesOf_split ds.source ceiling, Timeline.inside_append (nanos_le_of_mem_upTo hrows)
    (lt_nanos_of_mem_after hrows hasc), absorb_eq_foldl, Coverage.attributes_foldl_empty]
  rw [notesOf, ← List.map_tail, List.filter_map, List.map_map]
  exact Attributes.Merged.nil.foldl _

/-- Completing a bucket adds the note that is taken from behind it. -/
theorem attributes_close (hrows : ∀ row ∈ rows, row.Stamped) (hasc : Row.Ascending rows)
    (hfits : ∀ n ∈ notesOf ds.source rows, n.timestamp.AddFits ds.heartbeat) :
    ((⟨ds, {}⟩ : Track).close floor ceiling rows).coverage.attributes =
      ((Timeline.carried? ceiling.nanos ds.heartbeat.nanos (notesOf ds.source rows)
        (rows.map (·.timestamp.nanos))).toList.map (·.attributes)).foldl Attributes.merge?
        ((⟨ds, {}⟩ : Track).absorb floor (Row.upTo ceiling rows)).coverage.attributes := by
  have hlast := last_absorb ds floor (Row.upTo ceiling rows)
  have hds : ((⟨ds, {}⟩ : Track).absorb floor (Row.upTo ceiling rows)).datasource = ds :=
    datasource_absorb
  have hnext (horizon : Timestamp) (s : Sample) :=
    CarryOver.among_after_eq_found_iff hrows hasc ds.source horizon ceiling s
  rw [notesOf_split ds.source ceiling, Timeline.carried?_append (nanos_le_of_mem_upTo hrows)
    (lt_nanos_of_mem_after hrows hasc), close, notesOf, notesOf, List.getLast?_map, List.head?_map]
  cases hend : (samplesOf ds.source (Row.upTo ceiling rows)).getLast? with
  | none =>
    rw [attributes_complete_of_not_found (by simp [hlast, hend])]
    rfl
  | some last =>
    have hmem : .ofSample last ∈ notesOf ds.source rows := by
      rw [notesOf_split ds.source ceiling]
      exact List.mem_append_left _ (List.mem_map_of_mem (List.mem_of_getLast? hend))
    have hhorizon : (last.timestamp + ds.heartbeat).nanos =
        (Note.ofSample last).nanos + ds.heartbeat.nanos := Timestamp.nanos_add (hfits _ hmem)
    rw [hend] at hlast
    cases hhead : (samplesOf ds.source (Row.after ceiling rows)).head? with
    | none =>
      rw [attributes_complete_of_not_found]
      · rfl
      · intro t ht hlt s hs
        rw [hds, hnext, hhead] at hs
        cases hs.1
    | some next =>
      simp only [Option.map_some]
      split
      case isTrue hfresh =>
        refine attributes_complete_of_found hlast hfresh.1 ?_
        rw [hds, hnext, hhorizon]
        exact ⟨hhead, hfresh.2⟩
      case isFalse hstale =>
        refine attributes_complete_of_not_found fun t ht hlt s hs => ?_
        obtain rfl := Option.mem_some_iff.1 (hlast ▸ ht)
        rw [hds, hnext, hhead, hhorizon] at hs
        obtain ⟨⟨⟩, hfresh⟩ := hs
        exact hstale ⟨hlt, hfresh⟩

/-- A bucket that is closed has merged what it takes of all notes. -/
theorem merged_close (hrows : ∀ row ∈ rows, row.Stamped) (hasc : Row.Ascending rows)
    (hfits : ∀ n ∈ notesOf ds.source rows, n.timestamp.AddFits ds.heartbeat)
    (floor ceiling : Timestamp) :
    Attributes.Merged
      ((Timeline.contributing floor.nanos ceiling.nanos ds.heartbeat.nanos
        (notesOf ds.source rows) (rows.map (·.timestamp.nanos))).map (·.attributes))
      ((⟨ds, {}⟩ : Track).close floor ceiling rows).coverage.attributes := by
  rw [Timeline.contributing, List.map_append, attributes_close hrows hasc hfits]
  exact (merged_absorb ds hrows hasc floor ceiling).foldl _

end Track

end Close

end Telemetry
