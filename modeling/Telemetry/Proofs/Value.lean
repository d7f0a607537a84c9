import Mathlib.Algebra.Group.Int.Defs
import Mathlib.Algebra.Group.Nat.Defs
import Telemetry.Value

/-!
# Changes of counters

A counter that went backwards has been round once, and what it gained in between depends on how many
words there are on its dial. A word does not say of which width it is, so the width is read off the
distance: 32 bits where a turn of that many words makes up for it, 64 bits otherwise. The guess is
right for every 32-bit counter, and for every 64-bit counter that gained less than `2 ^ 64 - 2 ^
32`. At a distance of `2 ^ 32` exactly, one turn of a 32-bit dial leaves no gain at all.
-/

namespace Telemetry

/-- The kinds whose words start over at zero after the greatest one. -/
def MetricKind.wraps : MetricKind → Bool
  | counter | absolute => true
  | gauge | derive => false

theorem MetricKind.accumulates_of_wraps {k : MetricKind} (h : k.wraps = true) :
    k.accumulates = true := by
  cases k with
  | counter | absolute => rfl
  | gauge | derive => cases h

namespace Value

/-- How many words are taken to be on the dial of a counter that went backwards. -/
def turn (current previous : UInt64) : Nat :=
  if previous.toNat ≤ current.toNat + 2 ^ 32 then 2 ^ 32 else 2 ^ 64

section Words

variable {current previous : UInt64} {d : Nat}

theorem toNat_counterDelta_of_le (h : previous ≤ current) :
    (counterDelta current previous).toNat = current.toNat - previous.toNat := by
  rw [counterDelta, if_pos h, UInt64.toNat_sub_of_le _ _ h]

/-- Either way the words are added up modulo `2 ^ 64`, and the exact sum is a word again. -/
theorem toNat_counterDelta_of_lt (h : current < previous) :
    (counterDelta current previous).toNat + previous.toNat =
      current.toNat + turn current previous := by
  have hprevious := previous.toNat_lt
  rw [UInt64.lt_iff_toNat_lt] at h
  have hle : ¬ previous ≤ current := by
    rw [UInt64.le_iff_toNat_le]
    omega
  unfold counterDelta turn
  rw [if_neg hle]
  split
  · rw [if_neg (by omega), UInt64.toNat_sub]
    omega
  · have hturn : (0x100000000 : UInt64).toNat = 2 ^ 32 := rfl
    rw [if_pos (by omega), UInt64.toNat_add, UInt64.toNat_sub, hturn]
    omega

/-- A gain of less than a turn is found, if the dial is taken to be as wide as it is. -/
theorem toNat_counterDelta_of_mod {n : Nat} (hprevious : previous.toNat < n) (hd : d < n)
    (hturn : current < previous → turn current previous = n)
    (h : current.toNat = (previous.toNat + d) % n) :
    (counterDelta current previous).toNat = d := by
  rcases Nat.lt_or_ge (previous.toNat + d) n with hon | hround
  · rw [Nat.mod_eq_of_lt hon] at h
    have hle : previous ≤ current := UInt64.le_iff_toNat_le.2 (by omega)
    rw [toNat_counterDelta_of_le hle]
    omega
  · rw [Nat.mod_eq_sub_mod hround, Nat.mod_eq_of_lt (by omega)] at h
    have hlt : current < previous := UInt64.lt_iff_toNat_lt.2 (by omega)
    have hsum := toNat_counterDelta_of_lt hlt
    rw [hturn hlt] at hsum
    omega

theorem turn_of_wide (hd : d < 2 ^ 64 - 2 ^ 32)
    (h : current.toNat = (previous.toNat + d) % 2 ^ 64) (hlt : current < previous) :
    turn current previous = 2 ^ 64 := by
  have hprevious := previous.toNat_lt
  rw [UInt64.lt_iff_toNat_lt] at hlt
  exact if_neg (by omega)

theorem turn_of_narrow (h : previous.toNat < 2 ^ 32) : turn current previous = 2 ^ 32 :=
  if_pos (by omega)

end Words

variable {v previous : Value}

/-- A counter shows a smaller word than before. -/
def MovedBack (v previous : Value) : Prop :=
  v.kind.wraps = true ∧ v.word < previous.word

instance (v previous : Value) : Decidable (v.MovedBack previous) :=
  inferInstanceAs (Decidable (_ ∧ _))

theorem wrapped_iff : v.wrapped previous = true ↔ v.MovedBack previous := by
  cases v with
  | counter w | absolute w =>
    show decide (w < previous.word) = true ↔ true = true ∧ w < previous.word
    simp
  | gauge | derive => simp [wrapped, MovedBack, kind, MetricKind.wraps]

/-- The word before lies a turn of 32 bits ahead, exactly. -/
def FullTurn (v previous : Value) : Prop :=
  previous.word.toNat = v.word.toNat + 2 ^ 32

instance (v previous : Value) : Decidable (v.FullTurn previous) :=
  inferInstanceAs (Decidable (_ = _))

theorem kind_delta (v previous : Value) : (v.delta previous).kind = v.kind := by
  cases v <;> rfl

theorem number_delta (h : v.kind.wraps = true) :
    (v.delta previous).number = (v.delta previous).word.toFloat := by
  cases v with
  | counter | absolute => rfl
  | gauge | derive => cases h

theorem word_delta (h : v.kind.wraps = true) :
    (v.delta previous).word = counterDelta v.word previous.word := by
  cases v with
  | counter | absolute => rfl
  | gauge | derive => cases h

/-- A counter that moved back has gained something, but for a full turn. -/
theorem word_delta_pos_iff (h : v.MovedBack previous) :
    0 < (v.delta previous).word.toNat ↔ ¬ v.FullTurn previous := by
  obtain ⟨hwraps, hlt⟩ := h
  have hprevious := previous.word.toNat_lt
  have hsum := toNat_counterDelta_of_lt hlt
  rw [word_delta hwraps, FullTurn]
  unfold turn at hsum
  split at hsum <;> omega

/-- What a counter gained is recovered from its words, on a dial of 64 bits and on one of 32 bits;
and the gain that is told for a counter that went backwards is the exact number of steps it takes to
complete the turn. -/
theorem delta_recovers (h : v.kind.wraps = true) (previous : Value) :
    (v.delta previous).kind = v.kind ∧
      (∀ d < 2 ^ 64 - 2 ^ 32, v.word.toNat = (previous.word.toNat + d) % 2 ^ 64 →
        (v.delta previous).word.toNat = d) ∧
      (∀ d < 2 ^ 32, previous.word.toNat < 2 ^ 32 →
        v.word.toNat = (previous.word.toNat + d) % 2 ^ 32 →
        (v.delta previous).word.toNat = d) ∧
      (v.word < previous.word → ((v.delta previous).word.toNat : Int) =
        if previous.word.toNat ≤ v.word.toNat + 2 ^ 32 then
          (v.word.toNat : Int) + 2 ^ 32 - previous.word.toNat
        else (v.word.toNat : Int) + 2 ^ 64 - previous.word.toNat) := by
  rw [word_delta h]
  refine ⟨kind_delta v previous, ?wide, ?narrow, ?backwards⟩
  case wide =>
    intro d hd hv
    have hturn := turn_of_wide hd hv
    exact toNat_counterDelta_of_mod previous.word.toNat_lt (by omega) hturn hv
  case narrow =>
    intro d hd hprevious hv
    have hturn : turn v.word previous.word = 2 ^ 32 := turn_of_narrow hprevious
    exact toNat_counterDelta_of_mod hprevious hd (fun _ => hturn) hv
  case backwards =>
    intro hlt
    have hsum := toNat_counterDelta_of_lt hlt
    unfold turn at hsum
    split at hsum <;> rename_i hturn
    · rw [if_pos hturn]
      omega
    · rw [if_neg hturn]
      omega

/-- The greatest gain that a 64-bit counter may make, from the greatest word on. -/
theorem delta_recovers_acrossTop :
    let v := absolute (UInt64.ofNat (2 ^ 64 - 2 ^ 32 - 2))
    let previous := counter (UInt64.ofNat (2 ^ 64 - 1))
    v.kind.wraps = true ∧
      v.word.toNat = (previous.word.toNat + (2 ^ 64 - 2 ^ 32 - 1)) % 2 ^ 64 ∧
      (v.delta previous).word.toNat = 2 ^ 64 - 2 ^ 32 - 1 :=
  ⟨rfl, by decide, (delta_recovers rfl _).2.1 _ (by decide) (by decide)⟩

end Value

end Telemetry
