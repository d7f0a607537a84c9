import Telemetry.Proofs.Scan
import Telemetry.Proofs.Stages

/-!
# Prompt stages

A stage is prompt if it hands out a row as soon as it has read what the row is made of. What it
has handed out then depends only on the items read so far, and no later item can take it back. When
the rows that were read are used up, a prompt stage either has finished, `Finished`, or it reads the
next item, `Waiting`, and hands on an error that it meets there.

Prompt stages can be put behind each other. A producer that keeps a state is prompt if each of its
answers comes from one reading of its input, `Reads`: `Answers` says so of one answer, and
`run_reads` follows it through a whole run. A run may be abandoned on rows that hold no error, so
what a stage makes of them is only `Sound`; for which causes it may be abandoned is said along.
-/

namespace Telemetry.Feed

variable {α β γ σ : Type} {C : Abandonment → Prop} {rows : List (Row α)}

/-- The stage has handed out everything and reads nothing behind `rows`. -/
def Finished (stage : Feed α → Feed β) (rows : List (Row α)) : Prop :=
  ∀ tail, stage (ofRows rows ++ tail) = stage (ofRows rows)

/-- The stage has handed out `out` and reads the item behind `rows`. If that is an error, it comes
next. -/
structure Waiting (stage : Feed α → Feed β) (rows : List (Row α)) (out : List (Row β)) : Prop where
  handed_out : ∀ tail, ∃ tail', stage (ofRows rows ++ tail) = ofRows out ++ tail'
  hands_on : ∀ e later, ∃ later',
    stage (ofRows rows ++ .error e :: later) = ofRows out ++ .error e :: later'

/-- Rows with a property, up to their end or until the run is abandoned for an admitted cause. -/
def Sound (C : Abandonment → Prop) (Q : Row α → Prop) (feed : Feed α) : Prop :=
  ∃ out, (∀ row ∈ out, Q row) ∧ (feed = ofRows out ∨
    ∃ cause later, C cause ∧ feed = ofRows out ++ .error (.abandoned cause) :: later)

/-- A stage that turns rows with one property into rows with another, and is prompt on them. -/
structure Prompt (C : Abandonment → Prop) (P : Row α → Prop) (stage : Feed α → Feed β)
    (Q : Row β → Prop) : Prop where
  total : ∀ rows, (∀ row ∈ rows, P row) → Sound C Q (stage (ofRows rows))
  reads : ∀ rows, (∀ row ∈ rows, P row) → Finished stage rows ∨ ∃ out, Waiting stage rows out

theorem sound_ofRows {Q : Row α → Prop} (h : ∀ row ∈ rows, Q row) : Sound C Q (ofRows rows) :=
  ⟨rows, h, .inl rfl⟩

theorem exists_append_of_ofRows {out : List (Row α)} {tail : Feed α}
    (h : ofRows rows = ofRows out ++ tail) : ∃ rest, rows = out ++ rest := by
  obtain ⟨first, rest, rfl, hfirst, -⟩ := List.map_eq_append_iff.1 h
  have hinj : Function.Injective (Except.ok : Row α → Except QueryError (Row α)) :=
    fun _ _ heq => Except.ok.inj heq
  obtain rfl := hinj.list_map hfirst
  exact ⟨rest, rfl⟩

/-- Rows that begin a feed come before its first error. -/
theorem exists_append_of_failing {out : List (Row α)} {e : QueryError} {later tail : Feed α}
    (h : ofRows rows ++ .error e :: later = ofRows out ++ tail) : ∃ rest, rows = out ++ rest := by
  induction out generalizing rows with
  | nil => exact ⟨rows, rfl⟩
  | cons row out ih =>
    cases rows with
    | nil => cases (List.cons.inj h).1
    | cons row' rows =>
      obtain ⟨hrow, htail⟩ := List.cons.inj h
      obtain ⟨rest, rfl⟩ := ih htail
      exact ⟨rest, by rw [Except.ok.inj hrow]; rfl⟩

theorem Sound.forall_mem {Q : Row α → Prop} {out : List (Row α)} {tail : Feed α}
    (h : Sound C Q (ofRows out ++ tail)) : ∀ row ∈ out, Q row := by
  obtain ⟨all, hall, heq⟩ := h
  obtain ⟨rest, rfl⟩ : ∃ rest, all = out ++ rest := by
    rcases heq with heq | ⟨cause, later, -, heq⟩
    · exact exists_append_of_ofRows heq.symm
    · exact exists_append_of_failing heq.symm
  exact fun row hrow => hall row (List.mem_append_left rest hrow)

theorem Sound.of_mem_untilError {Q : Row α → Prop} {feed : Feed α} (h : Sound C Q feed)
    {row : Row α} (hrow : .ok row ∈ feed.untilError) : Q row := by
  obtain ⟨out, hout, rfl | ⟨cause, later, -, rfl⟩⟩ := h
  · rw [untilError_ofRows] at hrow
    obtain ⟨row', hrow', heq⟩ := List.mem_map.1 hrow
    exact Except.ok.inj heq ▸ hout row' hrow'
  · rw [untilError_failing] at hrow
    obtain ⟨row', hrow', heq⟩ := List.mem_map.1 ((List.mem_append.1 hrow).resolve_right (by simp))
    exact Except.ok.inj heq ▸ hout row' hrow'

section Comp

variable {P : Row α → Prop} {Q : Row β → Prop} {R : Row γ → Prop} {f : Feed α → Feed β}
  {g : Feed β → Feed γ}

/-- What a waiting stage has handed out has the property of its rows. -/
theorem Prompt.of_waiting (h : Prompt C P f Q) (hrows : ∀ row ∈ rows, P row) {out : List (Row β)}
    (hwait : Waiting f rows out) : ∀ row ∈ out, Q row := by
  obtain ⟨tail, htail⟩ := hwait.handed_out []
  rw [List.append_nil] at htail
  exact Sound.forall_mem (htail ▸ h.total rows hrows)

/-- A stage is sound on what is sound itself. -/
theorem Prompt.sound (h : Prompt C P f Q) {feed : Feed α} (hfeed : Sound C P feed) :
    Sound C Q (f feed) := by
  obtain ⟨rows, hrows, rfl | ⟨cause, later, hcause, rfl⟩⟩ := hfeed
  · exact h.total rows hrows
  · rcases h.reads rows hrows with hdone | ⟨out, hwait⟩
    · rw [hdone]
      exact h.total rows hrows
    · obtain ⟨later', hlater⟩ := hwait.hands_on (.abandoned cause) later
      exact ⟨out, h.of_waiting hrows hwait, .inr ⟨cause, later', hcause, hlater⟩⟩

/-- The later stage sees an error only if the earlier one hands it on. -/
theorem Prompt.comp (hg : Prompt C Q g R) (hf : Prompt C P f Q) :
    Prompt C P (fun feed => g (f feed)) R := by
  refine ⟨fun rows hrows => hg.sound (hf.total rows hrows), fun rows hrows => ?_⟩
  rcases hf.reads rows hrows with hdone | ⟨mid, hwait⟩
  · exact .inl fun tail => congrArg g (hdone tail)
  · rcases hg.reads mid (hf.of_waiting hrows hwait) with hdone | ⟨out, hwait'⟩
    · have hmid (tail : Feed α) : g (f (ofRows rows ++ tail)) = g (ofRows mid) := by
        obtain ⟨tail', htail⟩ := hwait.handed_out tail
        rw [htail, hdone]
      refine .inl fun tail => (hmid tail).trans ?_
      rw [← hmid [], List.append_nil]
    · refine .inr ⟨out, fun tail => ?_, fun e later => ?_⟩
      · obtain ⟨tail', htail⟩ := hwait.handed_out tail
        rw [htail]
        exact hwait'.handed_out tail'
      · obtain ⟨later', hlater⟩ := hwait.hands_on e later
        rw [hlater]
        exact hwait'.hands_on e later'

end Comp

/-! ## Stages that work row by row -/

/-- Rates are handed out row by row, up to the first row whose rates overflow. -/
theorem prompt_checkedRatesFrom (hC : C .overflow) (policy : CounterWrap)
    (tracked : List Tracked) :
    Prompt C (fun _ => True) (checkedRatesFrom policy tracked) fun _ => True := by
  refine ⟨fun rows _ => ?_, fun rows _ => ?_⟩
  · induction rows generalizing tracked with
    | nil =>
      show Sound C _ (.ofRows [])
      exact sound_ofRows (by simp)
    | cons row rest ih =>
      rw [ofRows_cons, checkedRatesFrom]
      split
      · exact ⟨[], by simp, .inr ⟨.overflow, [], hC, rfl⟩⟩
      · obtain ⟨out, -, hout⟩ := ih (rateRow policy tracked row).2 fun _ _ => trivial
        refine ⟨(rateRow policy tracked row).1 :: out, by simp, ?_⟩
        refine hout.imp (congrArg _) ?_
        exact fun ⟨cause, later, hcause, heq⟩ => ⟨cause, later, hcause, congrArg _ heq⟩
  · induction rows generalizing tracked with
    | nil => exact .inr ⟨[], fun tail => ⟨_, rfl⟩, fun e later => ⟨_, rfl⟩⟩
    | cons row rest ih =>
      have hstep (tail : Feed Value) :
          checkedRatesFrom policy tracked (ofRows (row :: rest) ++ tail) =
            if extractOverflows tracked row.readings then [.error (.abandoned .overflow)]
            else .ok (rateRow policy tracked row).1 ::
              checkedRatesFrom policy (rateRow policy tracked row).2 (ofRows rest ++ tail) := rfl
      by_cases hover : extractOverflows tracked row.readings = true
      · have hstop (tail : Feed Value) :
            checkedRatesFrom policy tracked (ofRows (row :: rest) ++ tail) =
              [.error (.abandoned .overflow)] := (hstep tail).trans (if_pos hover)
        exact .inl fun tail => (hstop tail).trans (by rw [← hstop [], List.append_nil])
      · simp only [if_neg hover] at hstep
        rcases ih (rateRow policy tracked row).2 fun _ _ => trivial with hdone | ⟨out, hwait⟩
        · refine .inl fun tail => (hstep tail).trans ?_
          rw [hdone, ← List.append_nil (ofRows (row :: rest)), hstep, List.append_nil]
        · refine .inr ⟨(rateRow policy tracked row).1 :: out, fun tail => ?_, fun e later => ?_⟩
          · obtain ⟨tail', htail⟩ := hwait.handed_out tail
            exact ⟨tail', (hstep tail).trans (congrArg (_ :: ·) htail)⟩
          · obtain ⟨later', hlater⟩ := hwait.hands_on e later
            exact ⟨later', (hstep _).trans (congrArg (_ :: ·) hlater)⟩

theorem prompt_mapRows {P : Row α → Prop} {Q : Row β → Prop}
    {f : Row α → Except QueryError (Row β)}
    (h : ∀ row, P row → ∃ out, f row = .ok out ∧ Q out) : Prompt C P (mapRows f) Q := by
  have hmap (rows : List (Row α)) (hrows : ∀ row ∈ rows, P row) :
      ∃ out, mapRows f (ofRows rows) = ofRows out ∧ ∀ row ∈ out, Q row := by
    induction rows with
    | nil => exact ⟨[], rfl, by simp⟩
    | cons row rest ih =>
      obtain ⟨hrow, hrest⟩ := List.forall_mem_cons.1 hrows
      obtain ⟨first, hfirst, hQ⟩ := h row hrow
      obtain ⟨out, hout, hall⟩ := ih hrest
      refine ⟨first :: out, ?_, List.forall_mem_cons.2 ⟨hQ, hall⟩⟩
      rw [ofRows_cons, ofRows_cons, ← hout, ← hfirst]
      rfl
  refine ⟨fun rows hrows => ?_, fun rows hrows => .inr ?_⟩
  · obtain ⟨out, hout, hQ⟩ := hmap rows hrows
    exact hout ▸ sound_ofRows hQ
  obtain ⟨out, hout, -⟩ := hmap rows hrows
  have happend (tail : Feed α) :
      mapRows f (ofRows rows ++ tail) = ofRows out ++ mapRows f tail := by
    rw [← hout]
    exact List.map_append
  exact ⟨out, fun tail => ⟨_, happend tail⟩, fun e later => ⟨_, happend (.error e :: later)⟩⟩

/-! ## Readings -/

section Reads

variable {ρ ρ' : Type} {read read' : Feed α → ρ} {left : List (Row α)}
  {Settled : (Feed α → ρ) → Prop} {Failed : QueryError → ρ → Prop}

/-- A reading comes to its end within `rows` and leaves what follows them to others, or it reads on
behind them and fails with an error that it meets there. -/
def Reads (read : Feed α → ρ) (rows : List (Row α)) (Settled : (Feed α → ρ) → Prop)
    (Failed : QueryError → ρ → Prop) : Prop :=
  (∃ answer left, Settled answer ∧
    ∀ tail, read (ofRows rows ++ tail) = answer (ofRows left ++ tail)) ∨
  ∀ e later, Failed e (read (ofRows rows ++ .error e :: later))

/-- A reading that goes on as another one does. -/
theorem Reads.of_eq (h : Reads read' left Settled Failed)
    (heq : ∀ tail, read (ofRows rows ++ tail) = read' (ofRows left ++ tail)) :
    Reads read rows Settled Failed := by
  rcases h with ⟨answer, left', hsettled, hanswer⟩ | hfailed
  · exact .inl ⟨answer, left', hsettled, fun tail => (heq tail).trans (hanswer tail)⟩
  · exact .inr fun e later => heq _ ▸ hfailed e later

theorem Reads.map {Settled' : (Feed α → ρ') → Prop} {Failed' : QueryError → ρ' → Prop} (f : ρ → ρ')
    (h : Reads read rows Settled Failed)
    (hsettled : ∀ answer, Settled answer → Settled' fun input => f (answer input))
    (hfailed : ∀ e result, Failed e result → Failed' e (f result)) :
    Reads (fun input => f (read input)) rows Settled' Failed' := by
  rcases h with ⟨answer, left, hanswer, heq⟩ | herror
  · exact .inl ⟨_, left, hsettled answer hanswer, fun tail => congrArg f (heq tail)⟩
  · exact .inr fun e later => hfailed e _ (herror e later)

end Reads

/-! ## Producers -/

/-- A producer has ended, or it hands out a row and keeps its input, or it is abandoned, or it fails
with an error that it meets in its input. -/
def Answers (next? : σ → Option (Except QueryError (Row β) × σ)) (load : σ → Feed α → σ)
    (s : σ) (rows : List (Row α)) : Prop :=
  Reads (fun input => next? (load s input)) rows
    (fun answer => (∀ input, answer input = none) ∨
      (∃ row s', ∀ input, answer input = some (.ok row, load s' input)) ∨
      ∃ cause, ∀ input, ∃ s', answer input = some (.error (.abandoned cause), s'))
    fun e answer => ∃ s', answer = some (.error e, s')

theorem run_of_error {next? : σ → Option (Except QueryError (Row β) × σ)} {s s' : σ}
    {e : QueryError} (h : next? s = some (.error e, s')) (n : Nat) :
    ∃ later, run next? (n + 1) s = .error e :: later := by
  rw [run, h]
  dsimp only
  split
  · exact ⟨[], rfl⟩
  · exact ⟨_, rfl⟩

/-- The induction runs over the requests. Whether a producer has ended does not depend on its
input. -/
theorem run_reads {next? : σ → Option (Except QueryError (Row β) × σ)} {load : σ → Feed α → σ}
    (hended : ∀ s input input', (next? (load s input)).isSome = (next? (load s input')).isSome)
    (h : ∀ s rows, Answers next? load s rows) (n : Nat) (s : σ) (rows : List (Row α)) :
    Finished (fun feed => run next? n (load s feed)) rows ∨
      ∃ out, Waiting (fun feed => run next? n (load s feed)) rows out := by
  induction n generalizing s rows with
  | zero =>
    refine .inl fun tail => ?_
    simp only [run]
    rw [hended s (ofRows rows ++ tail) (ofRows rows)]
  | succ n ih =>
    -- A run that is the same behind any tail reads nothing behind the rows.
    have hdone (feed : Feed β)
        (hsame : ∀ tail, run next? (n + 1) (load s (ofRows rows ++ tail)) = feed) :
        Finished (fun feed => run next? (n + 1) (load s feed)) rows := by
      have hnil := hsame []
      rw [List.append_nil] at hnil
      exact fun tail => (hsame tail).trans hnil.symm
    rcases h s rows with
      ⟨answer, left, hnone | ⟨row, s', hsome⟩ | ⟨cause, habandoned⟩, heq⟩ | herror
    · refine .inl (hdone [] fun tail => ?_)
      simp only [run, heq, hnone]
    · have hstep (tail : Feed α) : run next? (n + 1) (load s (ofRows rows ++ tail)) =
          .ok row :: run next? n (load s' (ofRows left ++ tail)) := by
        simp only [run, heq, hsome, abandons, Bool.false_eq_true, if_false]
      rcases ih s' left with hrest | ⟨out, hwait⟩
      · exact .inl (hdone _ fun tail => (hstep tail).trans (congrArg (.ok row :: ·) (hrest tail)))
      · refine .inr ⟨row :: out, fun tail => ?_, fun e later => ?_⟩
        · obtain ⟨tail', htail⟩ := hwait.handed_out tail
          exact ⟨tail', (hstep tail).trans (congrArg (.ok row :: ·) htail)⟩
        · obtain ⟨later', hlater⟩ := hwait.hands_on e later
          exact ⟨later', (hstep _).trans (congrArg (.ok row :: ·) hlater)⟩
    · refine .inl (hdone [.error (.abandoned cause)] fun tail => ?_)
      obtain ⟨s', hs'⟩ := habandoned (ofRows left ++ tail)
      simp only [run, heq, hs', abandons, if_true]
    · refine .inr ⟨[], fun tail => ⟨_, rfl⟩, fun e later => ?_⟩
      obtain ⟨s', hs'⟩ := herror e later
      exact run_of_error hs' n

end Telemetry.Feed
