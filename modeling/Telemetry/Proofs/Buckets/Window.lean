import Telemetry.Proofs.Buckets.Run

/-!
# Windows

The window of a bucket that ends with `c` is what lies after `c` less the resolution, up to and with
`c`. Along ascending points the buckets take up just their windows, whichever bucket comes first.
-/

namespace Telemetry

namespace Row

variable {α : Type} {p c : Timestamp} {resolution : Duration} {rows : List (Row α)}

/-- The rows of the bucket that ends with `c`. -/
def window (resolution : Duration) (c : Timestamp) (rows : List (Row α)) : List (Row α) :=
  rows.filter fun row =>
    c.nanos - resolution.nanos < row.timestamp.nanos ∧ row.timestamp.nanos ≤ c.nanos

theorem window_subset : window resolution c rows ⊆ rows :=
  List.filter_subset_self _

theorem window_append (rows' : List (Row α)) :
    window resolution c (rows ++ rows') = window resolution c rows ++ window resolution c rows' :=
  List.filter_append ..

theorem window_eq_nil_of_le
    (h : ∀ row ∈ rows, row.timestamp.nanos ≤ c.nanos - resolution.nanos) :
    window resolution c rows = [] := by
  refine List.filter_eq_nil_iff.2 fun row hrow => ?_
  have := h row hrow
  rw [decide_eq_true_eq]
  omega

theorem window_eq_nil_of_lt (h : ∀ row ∈ rows, c < row.timestamp) :
    window resolution c rows = [] := by
  refine List.filter_eq_nil_iff.2 fun row hrow => ?_
  have := Timestamp.lt_iff.1 (h row hrow)
  rw [decide_eq_true_eq]
  omega

/-- Of rows in order that end with the bucket, its window is what lies behind its beginning. -/
theorem window_eq_after (h : rows.Pairwise fun a b => a.timestamp ≤ b.timestamp)
    (hle : ∀ row ∈ rows, row.timestamp ≤ c) (hp : p.nanos = c.nanos - resolution.nanos) :
    window resolution c rows = after p rows := by
  rw [after_eq_filter h, window]
  apply List.filter_congr
  intro row hrow
  have := hle row hrow
  simp only [Timestamp.le_iff, Timestamp.lt_iff, decide_eq_decide] at this ⊢
  omega

theorem Ascending.upTo_after (h : Ascending rows) (hp : c.nanos = p.nanos + resolution.nanos) :
    Row.upTo c (Row.after p rows) = window resolution c rows := by
  rw [h.after.upTo_eq_filter, h.after_eq_filter, List.filter_filter, window]
  apply List.filter_congr
  intro row _
  simp only [Timestamp.le_iff, Timestamp.lt_iff, ← Bool.decide_and, decide_eq_decide]
  omega

theorem nanos_window : (window resolution c rows).map (·.timestamp.nanos) =
    (rows.map (·.timestamp.nanos)).filter fun x =>
      c.nanos - resolution.nanos < x ∧ x ≤ c.nanos := by
  rw [List.filter_map]
  rfl

end Row

variable {d : Descriptor} {resolution : Duration} {rows : List (Row Float)}

/-- The induction runs over the ends of the buckets; before each of them, all up to the end of the
bucket before it is left behind. -/
theorem bucketRows_eq_window (resource : String) (pointsPerBucket : Float) {p : Timestamp}
    {cs : List Timestamp} (hcs : (p :: cs).IsChain fun p c => c.nanos = p.nanos + resolution.nanos)
    (hasc : Row.Ascending rows) :
    bucketRows d resource pointsPerBucket cs (Row.after p rows) =
      cs.map fun c => d.consolidated resource pointsPerBucket (Row.window resolution c rows) c := by
  induction cs generalizing p with
  | nil => rfl
  | cons c rest ih =>
    obtain ⟨hpc, hrest⟩ := List.isChain_cons_cons.1 hcs
    have hle : p ≤ c := by
      have := resolution.nanos_nonneg
      rw [Timestamp.le_iff]
      omega
    rw [bucketRows, hasc.upTo_after hpc, ← Row.after_of_le hle, ih hrest, List.map_cons]

/-- Each bucket over a range is made of its window. -/
theorem Feed.buckets_eq_window {start finish : Timestamp} (resource : String)
    (hfits : RangeFits start finish resolution) (hres : 0 < resolution.nanos)
    (hfirst : (start.floor resolution).SubFits resolution) (hasc : Row.Ascending rows) :
    Feed.buckets d resource start finish resolution (.ofRows rows) =
      .ofRows ((Lattice.covering start finish resolution).toList.map fun c =>
        d.consolidated resource (resolution.ratio d.step) (Row.window resolution c rows) c) := by
  rw [Feed.buckets_ofRows, bucketRows_eq_window resource _ ?_ hasc]
  have hchain := hfits.isChain hres
  by_cases hle : start.floor resolution ≤ finish.ceil resolution
  · obtain ⟨rest, hlist⟩ := Lattice.toList_of_le hle
    rw [hlist] at hchain ⊢
    refine List.isChain_cons_cons.2 ⟨?_, hchain⟩
    rw [Timestamp.nanos_sub hfirst]
    omega
  · rw [Lattice.toList_of_not_le hle]
    exact List.isChain_singleton _

end Telemetry
