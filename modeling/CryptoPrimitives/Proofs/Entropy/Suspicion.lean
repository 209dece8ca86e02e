import CryptoPrimitives.Entropy.Health
import Mathlib.Data.Nat.Basic

/-!
# Histories that should raise an alarm

What the two continuous tests look for, said of all samples so far, oldest first: a run of equal
samples at the end of the history, and a last sample that is the first of its window over again
when the history is cut into windows. There are no counters here, and nothing is forgotten.
-/

set_option autoImplicit false

namespace CryptoPrimitives.Health

def endRun (h : List UInt64) : Nat := (h.reverse.takeWhile (some · = h.getLast?)).length

def lastWindow (w : Nat) (h : List UInt64) : List UInt64 := h.drop ((h.length - 1) / w * w)

def Repeated (cutoff : UInt32) (h : List UInt64) : Prop := max cutoff.toNat 2 ≤ endRun h

def Favoured (window cutoff : UInt32) (h : List UInt64) : Prop :=
  (lastWindow (max window.toNat 2) h).head? = h.getLast? ∧
    max cutoff.toNat 2 ≤ (lastWindow (max window.toNat 2) h).countP (some · = h.getLast?)

instance (cutoff : UInt32) (h : List UInt64) : Decidable (Repeated cutoff h) :=
  inferInstanceAs (Decidable (_ ≤ _))

instance (window cutoff : UInt32) (h : List UInt64) : Decidable (Favoured window cutoff h) :=
  inferInstanceAs (Decidable (_ ∧ _))

def alarm (rctCutoff aptWindow aptCutoff : UInt32) (h : List UInt64) : Option Fault :=
  if Repeated rctCutoff h then some .entropyRctFailure
  else if Favoured aptWindow aptCutoff h then some .entropyAptFailure
  else none

example : alarm 5 4 3 [1, 2, 1, 3, 9, 9, 1, 9] = some .entropyAptFailure := by decide

/-! ## Runs -/

variable {h : List UInt64} {x : UInt64}

theorem endRun_snoc (h : List UInt64) (x : UInt64) :
    endRun (h ++ [x]) = if h.getLast? = some x then endRun h + 1 else 1 := by
  have hlast : (h ++ [x]).getLast? = some x := List.getLast?_concat
  have hreverse : (h ++ [x]).reverse = x :: h.reverse := List.reverse_concat
  rw [endRun, hlast, hreverse, List.takeWhile_cons_of_pos (by simp), List.length_cons]
  split
  · rename_i hsame
    rw [endRun, hsame]
  · rename_i hother
    rw [← List.head?_reverse] at hother
    cases hbefore : h.reverse with
    | nil => rfl
    | cons y ys =>
      rw [hbefore, List.head?_cons] at hother
      rw [List.takeWhile_cons_of_neg (by simpa using hother)]
      rfl

theorem endRun_pos (h : List UInt64) (x : UInt64) : 1 ≤ endRun (h ++ [x]) := by
  rw [endRun_snoc]
  split <;> omega

theorem repeated_snoc (cutoff : UInt32) :
    Repeated cutoff (h ++ [x]) ↔ h.getLast? = some x ∧ cutoff.toNat ≤ endRun h + 1 := by
  rw [Repeated, endRun_snoc]
  split
  · rename_i hlast
    obtain ⟨before, rfl⟩ := List.getLast?_eq_some_iff.mp hlast
    have hpos := endRun_pos before x
    simp only [hlast, true_and]
    omega
  · rename_i hlast
    simp only [hlast, false_and, iff_false]
    omega

/-! ## Windows -/

theorem lastWindow_opened {w : Nat} (hw : w ∣ h.length) : lastWindow w (h ++ [x]) = [x] := by
  have hlength : (h ++ [x]).length - 1 = h.length := by simp
  rw [lastWindow, hlength, Nat.div_mul_cancel hw, List.drop_left]

theorem exists_pred {w : Nat} (hw : ¬ w ∣ h.length) : ∃ n, h.length = n + 1 :=
  Nat.exists_eq_add_one_of_ne_zero fun h0 => hw (h0 ▸ Nat.dvd_zero w)

theorem lastWindow_joined {w : Nat} (hw : ¬ w ∣ h.length) :
    lastWindow w (h ++ [x]) = lastWindow w h ++ [x] := by
  obtain ⟨n, hn⟩ := exists_pred hw
  have hlength : (h ++ [x]).length - 1 = n + 1 := by simp [hn]
  rw [hn] at hw
  rw [lastWindow, lastWindow, hlength, hn, Nat.add_sub_cancel, Nat.succ_div_of_not_dvd hw]
  have hstart : n / w * w ≤ n := Nat.div_mul_le_self n w
  exact List.drop_append_of_le_length (by omega)

theorem length_lastWindow {w : Nat} (hw : ¬ w ∣ h.length) :
    (lastWindow w h).length = h.length % w := by
  obtain ⟨n, hn⟩ := exists_pred hw
  have hsplit := Nat.div_add_mod' (n + 1) w
  rw [hn] at hw
  rw [Nat.succ_div_of_not_dvd hw] at hsplit
  rw [lastWindow, List.length_drop, hn, Nat.add_sub_cancel]
  omega

theorem not_favoured_opened {window cutoff : UInt32} (hw : max window.toNat 2 ∣ h.length) :
    ¬ Favoured window cutoff (h ++ [x]) := by
  rintro ⟨-, hcount⟩
  rw [lastWindow_opened hw] at hcount
  have hone := List.countP_le_length (p := (some · = (h ++ [x]).getLast?)) (l := [x])
  rw [List.length_singleton] at hone
  omega

theorem favoured_joined {window cutoff : UInt32} (hw : ¬ max window.toNat 2 ∣ h.length) :
    Favoured window cutoff (h ++ [x]) ↔ (lastWindow (max window.toNat 2) h).head? = some x ∧
      cutoff.toNat ≤ (lastWindow (max window.toNat 2) h).count x + 1 := by
  have hlast : (h ++ [x]).getLast? = some x := List.getLast?_concat
  have hcount : (lastWindow (max window.toNat 2) h ++ [x]).countP (some · = some x) =
      (lastWindow (max window.toNat 2) h).count x + 1 := by
    simp [List.count, List.countP_append, beq_eq_decide]
  rw [Favoured, lastWindow_joined hw, hlast, hcount]
  cases hwindow : lastWindow (max window.toNat 2) h with
  | nil =>
    have hnone := length_lastWindow hw
    rw [hwindow, List.length_nil] at hnone
    exact absurd (Nat.dvd_of_mod_eq_zero hnone.symm) hw
  | cons first rest =>
    simp only [List.cons_append, List.head?_cons, and_congr_right_iff]
    rintro hfirst
    cases hfirst
    rw [List.count_cons_self]
    omega

end CryptoPrimitives.Health
