import Telemetry.Expression.Parser
import Telemetry.Proofs.Descriptor

/-!
# Labels and their positions

A formula by position means what the formula means. The labels are gathered from left to right, so
that those of a part stay where they are when more are gathered behind them, and each position that
is read is the place of the label that stands there in the tree. `Expression.evaluate_map` is the
result for expressions: with the values of their labels for arguments they evaluate to their tree.
-/

namespace Telemetry

/-- The labels with one more behind them, unless it is among them. -/
def remember (labels : List String) (name : String) : List String :=
  if name ∈ labels then labels else labels ++ [name]

theorem prefix_remember (labels : List String) (name : String) :
    labels <+: remember labels name := by
  unfold remember
  split
  · exact List.prefix_rfl
  · exact List.prefix_append _ _

theorem prefix_foldl_remember (labels names : List String) :
    labels <+: names.foldl remember labels := by
  induction names generalizing labels with
  | nil => exact List.prefix_rfl
  | cons name rest ih => exact (prefix_remember labels name).trans (ih (remember labels name))

/-- Remembered one after the other, names stand in order of first use. -/
theorem foldl_remember_eraseDups (names more : List String) :
    more.foldl remember names.eraseDups = (names ++ more).eraseDups := by
  induction more generalizing names with
  | nil => simp
  | cons name rest ih =>
    have hone : remember names.eraseDups name = (names ++ [name]).eraseDups := by
      simp only [remember, eraseDups_concat, List.mem_eraseDups]
    rw [List.foldl_cons, hone, ih, List.append_assoc, List.singleton_append]

mutual

/-- The positions that a formula reads, from left to right. -/
def Positional.positions : Positional → List Nat
  | number _ => []
  | argument i => [i]
  | negate inner => inner.positions
  | binary _ left right => left.positions ++ right.positions
  | call _ args => positionsAll args

def Positional.positionsAll : List Positional → List Nat
  | [] => []
  | a :: rest => a.positions ++ positionsAll rest

end

namespace Formula

variable {final : List String} {name : String} {env : String → Float}

/-- A label is read from the place where it is remembered. -/
theorem positional_label (name : String) (labels : List String) : ∃ i,
    (label name).positional labels = (.argument i, remember labels name) ∧
      (remember labels name)[i]? = some name := by
  unfold positional
  cases h : labels.idxOf? name with
  | none =>
    have hnew : name ∉ labels := List.idxOf?_eq_none_iff.1 h
    refine ⟨labels.length, ?_, ?_⟩
    · simp [remember, hnew]
    · simp [remember, hnew]
  | some i =>
    obtain ⟨hi, hname, -⟩ := List.idxOf?_eq_some_iff.1 h
    have hmem : name ∈ labels := hname ▸ List.getElem_mem hi
    refine ⟨i, ?_, ?_⟩
    · simp [remember, hmem]
    · simp [remember, hmem, List.getElem?_eq_getElem hi, hname]

mutual

theorem labels_positional (e : Formula) (labels : List String) :
    (e.positional labels).2 = e.mentions.foldl remember labels := by
  cases e with
  | number x => rfl
  | label name =>
    obtain ⟨i, heq, -⟩ := positional_label name labels
    rw [heq]
    rfl
  | negate inner => exact labels_positional inner labels
  | binary op left right =>
    simp only [positional, mentions, List.foldl_append, labels_positional left,
      labels_positional right]
  | call f args => exact labels_positionalAll args labels

theorem labels_positionalAll (es : List Formula) (labels : List String) :
    (positionalAll es labels).2 = (mentionsAll es).foldl remember labels := by
  cases es with
  | nil => rfl
  | cons e rest =>
    simp only [positionalAll, mentionsAll, List.foldl_append, labels_positional e,
      labels_positionalAll rest]

end

theorem prefix_positional (e : Formula) (labels : List String) :
    labels <+: (e.positional labels).2 :=
  labels_positional e labels ▸ prefix_foldl_remember labels e.mentions

theorem prefix_positionalAll (es : List Formula) (labels : List String) :
    labels <+: (positionalAll es labels).2 :=
  labels_positionalAll es labels ▸ prefix_foldl_remember labels (mentionsAll es)

theorem getElem?_of_prefix {labels : List String} {i : Nat} (h : labels <+: final)
    (hi : labels[i]? = some name) : final[i]? = some name := by
  obtain ⟨more, rfl⟩ := h
  rw [List.getElem?_append_left (List.getElem?_eq_some_iff.1 hi).1, hi]

/-! Both inductions run over the tree, where `final` are labels gathered up to a later point. -/

mutual

/-- Position for position, the tree by position reads the labels that stand in the tree. -/
theorem getElem?_positions (e : Formula) (labels : List String)
    (h : (e.positional labels).2 <+: final) :
    (e.positional labels).1.positions.map (final[·]?) = e.mentions.map some := by
  cases e with
  | number x => rfl
  | label name =>
    obtain ⟨i, heq, hi⟩ := positional_label name labels
    rw [heq] at h ⊢
    simpa [Positional.positions, mentions] using getElem?_of_prefix h hi
  | negate inner => exact getElem?_positions inner labels h
  | binary op left right =>
    have hleft := getElem?_positions left labels ((prefix_positional right _).trans h)
    have hright := getElem?_positions right (left.positional labels).2 h
    simp only [positional, Positional.positions, mentions, List.map_append, hleft, hright]
  | call f args => exact getElem?_positionsAll args labels h

theorem getElem?_positionsAll (es : List Formula) (labels : List String)
    (h : (positionalAll es labels).2 <+: final) :
    (Positional.positionsAll (positionalAll es labels).1).map (final[·]?) =
      (mentionsAll es).map some := by
  cases es with
  | nil => rfl
  | cons e rest =>
    have hfirst := getElem?_positions e labels ((prefix_positionalAll rest _).trans h)
    have hrest := getElem?_positionsAll rest (e.positional labels).2 h
    simp only [positionalAll, Positional.positionsAll, mentionsAll, List.map_append, hfirst, hrest]

end

mutual

/-- With the values of the labels for arguments, the tree by position has the value of the tree. -/
theorem evaluate_positional (e : Formula) (labels : List String)
    (h : (e.positional labels).2 <+: final) :
    (e.positional labels).1.evaluate (final.map env) = e.evaluate env := by
  cases e with
  | number x => rfl
  | label name =>
    obtain ⟨i, heq, hi⟩ := positional_label name labels
    rw [heq] at h ⊢
    simp [Positional.evaluate, evaluate, getElem?_of_prefix h hi]
  | negate inner => exact congrArg (- ·) (evaluate_positional inner labels h)
  | binary op left right =>
    have hleft := evaluate_positional left labels ((prefix_positional right _).trans h)
    have hright := evaluate_positional right (left.positional labels).2 h
    simp only [positional, Positional.evaluate, evaluate, hleft, hright]
  | call f args => exact congrArg f.apply (evaluateAll_positionalAll args labels h)

theorem evaluateAll_positionalAll (es : List Formula) (labels : List String)
    (h : (positionalAll es labels).2 <+: final) :
    Positional.evaluateAll (final.map env) (positionalAll es labels).1 = evaluateAll env es := by
  cases es with
  | nil => rfl
  | cons e rest =>
    have hfirst := evaluate_positional e labels ((prefix_positionalAll rest _).trans h)
    have hrest := evaluateAll_positionalAll rest (e.positional labels).2 h
    simp only [positionalAll, Positional.evaluateAll, evaluateAll, hfirst, hrest]

end

end Formula

namespace Expression

/-- The labels of an expression are those of its tree, each once, in order of first use. -/
theorem labels_eq (e : Expression) : e.labels = e.formula.labels := by
  have h := foldl_remember_eraseDups [] e.formula.mentions
  rw [labels, Formula.labels_positional, Formula.labels]
  simpa using h

theorem mem_labels {e : Expression} {name : String} :
    name ∈ e.labels ↔ name ∈ e.formula.mentions := by
  rw [labels_eq, Formula.labels, List.mem_eraseDups]

theorem getElem?_positions_root (e : Expression) :
    e.root.positions.map (e.labels[·]?) = e.formula.mentions.map some :=
  Formula.getElem?_positions e.formula [] List.prefix_rfl

/-- With the values of its labels for arguments, an expression evaluates to its tree. -/
theorem evaluate_map (e : Expression) (env : String → Float) :
    e.evaluate (e.labels.map env) = e.formula.evaluate env :=
  Formula.evaluate_positional e.formula [] List.prefix_rfl

end Expression

end Telemetry
