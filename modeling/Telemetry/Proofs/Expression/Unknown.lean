import Telemetry.Proofs.Expression.Calculated
import Telemetry.Proofs.Expression.Parsing
import Telemetry.Proofs.Number.Unknown

/-!
# Expressions of unknown numbers

An expression is unknown as soon as one of its labels is, wherever in the tree the label stands:
each operation on the way up hands it on. For this it matters that `abs` is called with one
argument, for it would pay no heed to any further one. A call of `min` or `max` with known arguments
has the value of one of them, since there is no call without arguments in what was read.
-/

namespace Telemetry

/-! ## Trees -/

namespace Formula

variable {env : String → Float}

theorem length_evaluateAll (es : List Formula) : (evaluateAll env es).length = es.length := by
  induction es with
  | nil => rfl
  | cons e rest ih => exact congrArg (· + 1) ih

mutual

/-- A formula that mentions an unknown label is unknown. -/
theorem isNaN_evaluate (e : Formula) (habs : e.UnaryAbs)
    (h : ∃ name ∈ e.mentions, (env name).isNaN = true) : (e.evaluate env).isNaN = true := by
  cases e with
  | number x => simp [mentions] at h
  | label name =>
    obtain ⟨name', hmem, hnan⟩ := h
    obtain rfl := List.mem_singleton.1 hmem
    exact hnan
  | negate inner => exact Number.isNaN_neg (isNaN_evaluate inner habs h)
  | binary op left right =>
    obtain ⟨name, hmem, hnan⟩ := h
    refine op.isNaN_apply ?_
    rcases List.mem_append.1 hmem with hmem | hmem
    · exact .inl (isNaN_evaluate left habs.1 ⟨name, hmem, hnan⟩)
    · exact .inr (isNaN_evaluate right habs.2 ⟨name, hmem, hnan⟩)
  | call f args =>
    refine Builtin.isNaN_apply ?_ (exists_isNaN_evaluateAll args habs.2 h)
    rw [length_evaluateAll]
    exact habs.1

theorem exists_isNaN_evaluateAll (es : List Formula) (habs : UnaryAbsAll es)
    (h : ∃ name ∈ mentionsAll es, (env name).isNaN = true) :
    ∃ x ∈ evaluateAll env es, x.isNaN = true := by
  cases es with
  | nil => simp [mentionsAll] at h
  | cons e rest =>
    obtain ⟨name, hmem, hnan⟩ := h
    rcases List.mem_append.1 hmem with hmem | hmem
    · exact ⟨_, List.mem_cons_self, isNaN_evaluate e habs.1 ⟨name, hmem, hnan⟩⟩
    · obtain ⟨x, hx, hxnan⟩ := exists_isNaN_evaluateAll rest habs.2 ⟨name, hmem, hnan⟩
      exact ⟨x, List.mem_cons_of_mem _ hx, hxnan⟩

end

end Formula

/-! ## Parts of a tree by position -/

namespace Positional

/-- The part stands somewhere in the tree. -/
inductive Part (part : Positional) : Positional → Prop
  | self : Part part part
  | negate {inner : Positional} (h : Part part inner) : Part part (.negate inner)
  | left {op : Operator} {l r : Positional} (h : Part part l) : Part part (.binary op l r)
  | right {op : Operator} {l r : Positional} (h : Part part r) : Part part (.binary op l r)
  | argument {f : Builtin} {args : List Positional} {a : Positional} (ha : a ∈ args)
      (h : Part part a) : Part part (.call f args)

/-- Every call in the tree has an argument. -/
def Applied (p : Positional) : Prop :=
  ∀ ⦃f args⦄, Part (.call f args) p → args ≠ []

variable {p l r : Positional} {op : Operator} {f : Builtin} {args : List Positional}

theorem applied_number (x : Float) : (number x).Applied := by
  rintro f args ⟨⟩

theorem applied_argument (i : Nat) : (argument i).Applied := by
  rintro f args ⟨⟩

theorem Applied.negate (h : p.Applied) : p.negate.Applied := by
  rintro f args ⟨⟩
  exact h ‹_›

theorem Applied.binary (hl : l.Applied) (hr : r.Applied) : (binary op l r).Applied := by
  rintro f args (_ | _ | h | h | _)
  · exact hl h
  · exact hr h

theorem Applied.call (hne : args ≠ []) (h : ∀ a ∈ args, a.Applied) :
    (Positional.call f args).Applied := by
  intro f' args' hpart
  cases hpart with
  | self => exact hne
  | argument ha hpart => exact h _ ha hpart

theorem evaluateAll_eq_map (xs : List Float) (ps : List Positional) :
    evaluateAll xs ps = ps.map (·.evaluate xs) := by
  induction ps with
  | nil => rfl
  | cons p ps ih => exact congrArg (p.evaluate xs :: ·) ih

end Positional

namespace Expression

open Positional

theorem positionalAll_append (es more : List Formula) (labels : List String) :
    (Formula.positionalAll (es ++ more) labels).1 =
      (Formula.positionalAll es labels).1 ++
        (Formula.positionalAll more (Formula.positionalAll es labels).2).1 := by
  induction es generalizing labels with
  | nil => rfl
  | cons e es ih => exact congrArg ((e.positional labels).1 :: ·) (ih (e.positional labels).2)

/-- What was read and turned into a tree by position has no call without arguments. -/
def AppliedPhrase : Phrase → Prop
  | .expr e | .term e | .factor e | .atom e => ∀ labels, (e.positional labels).1.Applied
  | .arguments es => ∀ labels, (Formula.positionalAll es labels).1 ≠ [] ∧
      ∀ a ∈ (Formula.positionalAll es labels).1, a.Applied

theorem Derives.applied {p : Phrase} {ts : List Token} (h : Derives p ts) : AppliedPhrase p := by
  induction h with
  | term _ ih | factor _ ih | atom _ ih => exact ih
  | sum _ _ _ ihl ihr | product _ _ _ ihl ihr =>
    exact fun labels => (ihl labels).binary (ihr _)
  | negate _ ih => exact fun labels => (ih labels).negate
  | number x => exact fun _ => applied_number x
  | label s =>
    intro labels
    obtain ⟨i, heq, -⟩ := Formula.positional_label (String.ofList s) labels
    rw [heq]
    exact applied_argument i
  | call f _ ih => exact fun labels => .call (ih labels).1 (ih labels).2
  | parens _ ih => exact ih
  | single _ ih =>
    intro labels
    refine ⟨List.cons_ne_nil _ _, fun a ha => ?_⟩
    obtain rfl := List.mem_singleton.1 ha
    exact ih labels
  | @further es e _ _ _ _ ihs ih =>
    intro labels
    rw [positionalAll_append]
    refine ⟨List.append_ne_nil_of_left_ne_nil (ihs labels).1 _, fun a ha => ?_⟩
    rcases List.mem_append.1 ha with ha | ha
    · exact (ihs labels).2 a ha
    · obtain rfl := List.mem_singleton.1 ha
      exact ih _

/-! ## Expressions -/

variable {text : String} {e : Expression} {args : List Float}

theorem formula_of_parse (h : Expression.parse text = .ok e) :
    Formula.parse text.toList = .ok e.formula := by
  rw [Expression.parse] at h
  cases hformula : Formula.parse text.toList with
  | error err =>
    rw [hformula] at h
    cases h
  | ok tree =>
    rw [hformula] at h
    cases h
    rfl

/-- With one argument for each label, the arguments are the values of the labels. -/
theorem exists_values (h : args.length = e.labels.length) :
    ∃ env : String → Float, e.labels.map env = args := by
  have hnodup : e.labels.Nodup := by
    rw [labels_eq]
    exact nodup_eraseDups _
  refine ⟨fun name => args.getD (e.labels.idxOf name) unknown, ?_⟩
  apply List.ext_getElem
  · rw [List.length_map, h]
  · intro i hi hi'
    rw [List.length_map] at hi
    rw [List.getElem_map, hnodup.idxOf_getElem i hi, List.getD_eq_getElem _ _ hi']

/-- An expression is unknown as soon as one of its labels has an unknown value, whatever the values
of the others are; and wherever it calls for the least or the greatest of numbers, all of which are
known, it gets one of them. -/
theorem unknown_propagates (h : Expression.parse text = .ok e)
    (hargs : args.length = e.labels.length) :
    (∀ name x, (name, x) ∈ e.labels.zip args → x.isNaN = true →
      (e.evaluate args).isNaN = true) ∧
    ∀ f ps, f = .min ∨ f = .max → Part (.call f ps) e.root →
      (∀ p ∈ ps, (p.evaluate args).isNaN = false) →
      ∃ p ∈ ps, (Positional.call f ps).evaluate args = p.evaluate args := by
  obtain ⟨ts, -, hderives, habs⟩ := derives_of_parse (formula_of_parse h)
  constructor
  · intro name x hmem hnan
    obtain ⟨env, rfl⟩ := exists_values hargs
    rw [← List.map_prod_left_eq_zip] at hmem
    obtain ⟨name, hname, hpair⟩ := List.mem_map.1 hmem
    obtain ⟨rfl, rfl⟩ := Prod.mk.inj hpair
    rw [evaluate_map]
    exact Formula.isNaN_evaluate e.formula habs ⟨name, mem_labels.1 hname, hnan⟩
  · intro f ps hf hpart hknown
    have hne : ps ≠ [] := hderives.applied [] hpart
    have hmem : f.apply (evaluateAll args ps) ∈ evaluateAll args ps := by
      rw [evaluateAll_eq_map]
      refine Builtin.apply_mem hf (by simpa using hne) fun x hx => ?_
      obtain ⟨p, hp, rfl⟩ := List.mem_map.1 hx
      exact hknown p hp
    rw [evaluateAll_eq_map] at hmem
    obtain ⟨p, hp, heq⟩ := List.mem_map.1 hmem
    refine ⟨p, hp, ?_⟩
    rw [Positional.evaluate, evaluateAll_eq_map, heq]

theorem unknown_propagates_spread :
    Expression.parse "max(free,load)/load" = .ok ⟨"max(free,load)/load", .spread⟩ ∧
    (⟨"max(free,load)/load", .spread⟩ : Expression).labels = ["free", "load"] ∧
    ((⟨"max(free,load)/load", .spread⟩ : Expression).evaluate [unknown, 3]).isNaN = true ∧
    ∃ p ∈ [Positional.argument 0, .argument 1],
      (Positional.call .max [.argument 0, .argument 1]).evaluate [5, 3] = p.evaluate [5, 3] := by
  have hparse : Expression.parse "max(free,load)/load" =
      .ok ⟨"max(free,load)/load", .spread⟩ := by
    rw [Expression.parse, Formula.parse_spread]
    rfl
  have hlabels : (⟨"max(free,load)/load", .spread⟩ : Expression).labels = ["free", "load"] := rfl
  refine ⟨hparse, hlabels, ?_, ?_⟩
  · exact (unknown_propagates hparse rfl).1 "free" unknown (.head _) isNaN_unknown
  · refine (unknown_propagates hparse rfl).2 .max _ (.inr rfl) (.left .self) fun p hp => ?_
    simp only [List.mem_cons, List.not_mem_nil, or_false] at hp
    rcases hp with rfl | rfl <;> rfl

end Expression

end Telemetry
