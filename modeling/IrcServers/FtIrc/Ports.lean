import Mathlib.Algebra.Group.Int.Defs
import Mathlib.Algebra.Group.Nat.Defs
import IrcServers.FtIrc.Parsing

/-!
# The port argument

`Checker::port` admits every text of decimal digits, of any length, and compares
what `atoi` makes of it with the bounds.  `atoi` cuts the value to an `int`, so a
long text may pass for the number given by its last 32 binary digits; from `2 ^ 63`
on, the value is clipped first, and is cut to `-1`.
-/

namespace FtIrc

open Utils

/-- `ServerException::PortDigitException` and
`ServerException::PortRangeException`. -/
inductive PortException where
  | portDigit
  | portRange
deriving DecidableEq

namespace Checker

/-- `MIN_PORT`. -/
def minPort : Int := 1

/-- `MAX_PORT`. -/
def maxPort : Int := 65535

/-- `Checker::port`. -/
def port (port : Str) : Except PortException Int :=
  if port.all Char.isDigit then
    let portNum := atoi port
    if portNum < minPort ∨ portNum > maxPort then .error .portRange else .ok portNum
  else .error .portDigit

/-- The text is a port number: decimal digits with a value within the bounds. -/
def IsPort (s : Str) (n : Int) : Prop :=
  s.all Char.isDigit = true ∧ (decimal s : Int) = n ∧ minPort ≤ n ∧ n ≤ maxPort

/-- `Checker::port` returns the port numbers, and throws for all other texts. -/
structure PortRight (s : Str) : Prop where
  returns : ∀ n, port s = .ok n ↔ IsPort s n
  throws : (∀ n, ¬ IsPort s n) → port s = .error .portDigit ∨ port s = .error .portRange

/-- The text is the number of a port only when it is cut to an `int`. -/
structure Overflows (s : Str) : Prop where
  digits : s.all Char.isDigit = true
  long : 2 ^ 32 ≤ decimal s
  unclipped : decimal s < 2 ^ 63
  residue : 1 ≤ decimal s % 2 ^ 32 ∧ decimal s % 2 ^ 32 ≤ 65535

variable {s : Str}

/-- A text of digits is read from its start to its end. -/
theorem leadingInt_digits (h : s.all Char.isDigit = true) : leadingInt s = decimal s := by
  have hdigits : ∀ c ∈ s, c.isDigit = true := List.all_eq_true.mp h
  have hall : s.takeWhile Char.isDigit = s := List.takeWhile_eq_self_iff.mpr hdigits
  cases s with
  | nil => rfl
  | cons c rest =>
      have hc := hdigits c List.mem_cons_self
      have hspace : isspace c = false := by
        by_contra hspace
        simp only [isspace, Bool.not_eq_false, Bool.or_eq_true, decide_eq_true_eq] at hspace
        rcases hspace with ((((rfl | rfl) | rfl) | rfl) | rfl) | rfl <;> exact absurd hc (by decide)
      unfold leadingInt
      rw [List.dropWhile_cons_of_neg (by simp [hspace])]
      split
      · rename_i heq
        obtain ⟨rfl, -⟩ := List.cons.inj heq
        exact absurd hc (by decide)
      · rename_i heq
        obtain ⟨rfl, -⟩ := List.cons.inj heq
        exact absurd hc (by decide)
      · rw [hall]

/-- **What is compared with the bounds.**  The value of the text is within the
bounds after the cut just when it is not clipped and its residue is. -/
theorem atoi_bounds (h : s.all Char.isDigit = true) :
    (minPort ≤ atoi s ∧ atoi s ≤ maxPort) ↔
      decimal s < 2 ^ 63 ∧ 1 ≤ decimal s % 2 ^ 32 ∧ decimal s % 2 ^ 32 ≤ 65535 := by
  unfold atoi minPort maxPort
  rw [leadingInt_digits h]
  omega

/-- A value within the bounds after the cut is the residue. -/
theorem atoi_eq (h : s.all Char.isDigit = true) (hbounds : minPort ≤ atoi s ∧ atoi s ≤ maxPort) :
    atoi s = (decimal s % 2 ^ 32 : Nat) := by
  obtain ⟨hclip, hresidue⟩ := (atoi_bounds h).mp hbounds
  unfold atoi
  rw [leadingInt_digits h]
  omega

/-- `Checker::port` returns the number when the text has digits only and the number is
in range. -/
theorem port_eq_ok {n : Int} : port s = .ok n ↔
    s.all Char.isDigit = true ∧ (minPort ≤ atoi s ∧ atoi s ≤ maxPort) ∧ atoi s = n := by
  unfold port
  by_cases hdigits : s.all Char.isDigit = true
  · rw [if_pos hdigits]
    dsimp only
    split
    · rename_i hout
      refine iff_of_false (by simp) fun h => ?_
      omega
    · rename_i hin
      have hbounds : minPort ≤ atoi s ∧ atoi s ≤ maxPort := by omega
      simp [hdigits, hbounds]
  · simp [hdigits]

/-- What `port` does not return, it throws an exception for. -/
theorem port_throws (h : ∀ n, port s ≠ .ok n) :
    port s = .error .portDigit ∨ port s = .error .portRange := by
  cases hport : port s with
  | ok n => exact (h n hport).elim
  | error e => cases e <;> simp

/-- A number that does not overflow is within the bounds before the cut if it is
after it, and is returned as it is. -/
theorem atoi_eq_iff (hdigits : s.all Char.isDigit = true) (hfits : ¬ Overflows s) {n : Int} :
    (minPort ≤ atoi s ∧ atoi s ≤ maxPort) ∧ atoi s = n ↔
      (decimal s : Int) = n ∧ minPort ≤ n ∧ n ≤ maxPort := by
  have hshort : (minPort ≤ atoi s ∧ atoi s ≤ maxPort) → decimal s < 2 ^ 32 := by
    intro hbounds
    obtain ⟨hclip, hresidue⟩ := (atoi_bounds hdigits).mp hbounds
    by_contra hlong
    exact hfits ⟨hdigits, Nat.not_lt.mp hlong, hclip, hresidue⟩
  constructor
  · rintro ⟨hbounds, rfl⟩
    have hvalue := atoi_eq hdigits hbounds
    have hless := hshort hbounds
    refine ⟨?_, hbounds⟩
    omega
  · rintro ⟨rfl, hmin, hmax⟩
    unfold minPort at hmin
    unfold maxPort at hmax
    have hbounds := (atoi_bounds hdigits).mpr (by omega)
    refine ⟨hbounds, ?_⟩
    rw [atoi_eq hdigits hbounds]
    omega

/-- **Ports.**  For every argument, `Checker::port` returns its number if it is a
port and throws otherwise, if and only if the argument is not a number from
`2 ^ 32` up to `2 ^ 63` whose residue modulo `2 ^ 32` is the number of a port. -/
theorem portRight_iff (s : Str) : PortRight s ↔ ¬ Overflows s := by
  constructor
  · intro hright hover
    have hbounds := (atoi_bounds hover.digits).mpr ⟨hover.unclipped, hover.residue⟩
    have hport := port_eq_ok.mpr ⟨hover.digits, hbounds, rfl⟩
    obtain ⟨-, hvalue, -⟩ := (hright.returns (atoi s)).mp hport
    have hresidue := atoi_eq hover.digits hbounds
    have hlong := hover.long
    omega
  · intro hfits
    have hreturns : ∀ n, port s = .ok n ↔ IsPort s n := fun n =>
      port_eq_ok.trans (and_congr_right fun hdigits => atoi_eq_iff hdigits hfits)
    exact ⟨hreturns, fun hnone => port_throws fun n hport => hnone n ((hreturns n).mp hport)⟩

/-- A number of ten digits is taken for port 80. -/
theorem port_truncated : ¬ ∀ s, PortRight s := by
  intro hall
  have hport : port "4294967376".toList = .ok 80 := by decide
  have hvalue := ((hall _).returns 80).mp hport
  exact absurd hvalue.2.1 (by decide)

end Checker

end FtIrc
