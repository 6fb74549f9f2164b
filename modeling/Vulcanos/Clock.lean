import Vulcanos.Kernel.Time

/-!
# Reading the clock

Every field is read twice, once for each of its digits. When the clock goes on between the two
reads, the digits may belong to two different times.
-/

namespace Vulcanos

/-- The number a BCD byte stands for. -/
def decimal (b : UInt8) : Nat := b.toNat / 16 * 10 + b.toNat % 16

/-- A byte with a decimal digit in each half. -/
def IsBcd (b : UInt8) : Prop := b.toNat / 16 ≤ 9 ∧ b.toNat % 16 ≤ 9

instance (b : UInt8) : Decidable (IsBcd b) := inferInstanceAs (Decidable (_ ∧ _))

inductive TimeField where
  | second
  | minute
  | hour
  | day
  | month
  | year
deriving Repr, DecidableEq

def TimeField.reg : TimeField → Nat
  | second => timeRSecond
  | minute => timeRMinute
  | hour => timeRHour
  | day => timeRDay
  | month => timeRMonth
  | year => timeRYear

def TimeT.field (tm : TimeT) : TimeField → Nat
  | .second => tm.second
  | .minute => tm.minute
  | .hour => tm.hour
  | .day => tm.day
  | .month => tm.month
  | .year => tm.year

namespace Rtc

variable (r : Rtc)

/-- An instant of the call that leads from `s` to `s'`: not before its first port access and not
after its last one. -/
def During (s s' : Cmos) (u : Nat) : Prop :=
  r.instant s.accesses ≤ u ∧ u ≤ r.instant (s'.accesses - 1)

/-- The number is what the register stood for at one instant of the call. -/
def HeldDuring (reg : Nat) (s s' : Cmos) (v : Nat) : Prop :=
  ∃ u, r.During s s' u ∧ v = decimal (r.held u reg)

/-- What the register holds at the time of the `n`-th port access. -/
def seen (reg n : Nat) : UInt8 := r.held (r.instant n) reg

/-- The two reads of a field, at the `m`-th port access and two accesses later, find bytes that
share a digit. -/
def Agree (reg m : Nat) : Prop :=
  (r.seen reg m).toNat / 16 = (r.seen reg (m + 2)).toNat / 16 ∨
    (r.seen reg m).toNat % 16 = (r.seen reg (m + 2)).toNat % 16

/-- During the call the register holds no byte but the two that are read, as it does when it changes
once at most. -/
def HoldsReads (reg m : Nat) (s s' : Cmos) : Prop :=
  ∀ u, r.During s s' u → r.held u reg = r.seen reg m ∨ r.held u reg = r.seen reg (m + 2)

section Reads

variable {r} {s s' : Cmos} {rightFirst : Bool} {reg m v fuel : Nat}

theorem bcdConverter_eq (rightFirst : Bool) (reg : Nat) (s : Cmos) :
    bcdConverter rightFirst (r.regStatus reg) s =
      ((r.seen (reg % 256) (if rightFirst then s.accesses + 3 else s.accesses + 1)).toNat / 16 * 10
        + (r.seen (reg % 256) (if rightFirst then s.accesses + 1 else s.accesses + 3)).toNat % 16,
        ⟨s.accesses + 4, reg % 256⟩) := by
  have hmask : ∀ n : Nat, n &&& 0xF = n % 16 := fun n => Nat.and_two_pow_sub_one_eq_mod n 4
  cases rightFirst <;> simp [bcdConverter, regStatus, inb, Cmos.outb, seen, hmask]

theorem digits_eq_iff {high low b : UInt8} (hhigh : IsBcd high) (hlow : IsBcd low) (hb : IsBcd b) :
    high.toNat / 16 * 10 + low.toNat % 16 = decimal b ↔
      b.toNat / 16 = high.toNat / 16 ∧ b.toNat % 16 = low.toNat % 16 := by
  obtain ⟨hhigh, -⟩ := hhigh
  obtain ⟨-, hlow⟩ := hlow
  obtain ⟨hb, hb'⟩ := hb
  unfold decimal
  omega

/-- The digits of two reads that share one belong to one of the two instants. -/
theorem heldDuring_of_agree (rightFirst : Bool) (s s' : Cmos) (hbcd : ∀ u, IsBcd (r.held u reg))
    (hfirst : s.accesses ≤ m) (hlast : m + 3 ≤ s'.accesses) (hagree : r.Agree reg m) :
    r.HeldDuring reg s s' ((r.seen reg (if rightFirst then m + 2 else m)).toNat / 16 * 10 +
        (r.seen reg (if rightFirst then m else m + 2)).toNat % 16) := by
  have hin : ∀ n, m ≤ n → n ≤ m + 2 → r.During s s' (r.instant n) := fun n hlo hhi =>
    ⟨r.forward.monotone (by omega), r.forward.monotone (by omega)⟩
  have hboth : ∀ {a b : Nat}, m ≤ a → a ≤ m + 2 → m ≤ b → b ≤ m + 2 →
      ((r.seen reg a).toNat / 16 = (r.seen reg b).toNat / 16 ∨
        (r.seen reg a).toNat % 16 = (r.seen reg b).toNat % 16) →
      r.HeldDuring reg s s' ((r.seen reg a).toNat / 16 * 10 + (r.seen reg b).toNat % 16) := by
    rintro a b hma ham hmb hbm (hhigh | hlow)
    · exact ⟨_, hin b hmb hbm, (digits_eq_iff (hbcd _) (hbcd _) (hbcd _)).mpr ⟨hhigh.symm, rfl⟩⟩
    · exact ⟨_, hin a hma ham, (digits_eq_iff (hbcd _) (hbcd _) (hbcd _)).mpr ⟨rfl, hlow⟩⟩
  have hnext : m ≤ m + 2 := Nat.le_add_right m 2
  cases rightFirst with
  | false => exact hboth (Nat.le_refl m) hnext hnext (Nat.le_refl _) hagree
  | true =>
      exact hboth hnext (Nat.le_refl _) (Nat.le_refl m) hnext (hagree.imp Eq.symm Eq.symm)

/-- Where there are no other bytes to take the digits from, they have to share one. -/
theorem agree_of_heldDuring (hbcd : ∀ u, IsBcd (r.held u reg))
    (honly : r.HoldsReads reg m s s')
    (hheld : r.HeldDuring reg s s' ((r.seen reg (if rightFirst then m + 2 else m)).toNat / 16 * 10 +
        (r.seen reg (if rightFirst then m else m + 2)).toNat % 16)) : r.Agree reg m := by
  obtain ⟨u, hu, hv⟩ := hheld
  obtain ⟨hhigh, hlow⟩ := (digits_eq_iff (hbcd _) (hbcd _) (hbcd _)).mp hv
  unfold Agree
  rcases honly u hu with hbyte | hbyte <;> rw [hbyte] at hhigh hlow <;> cases rightFirst
  · exact Or.inr hlow
  · exact Or.inl hhigh
  · exact Or.inl hhigh.symm
  · exact Or.inr hlow.symm

/-! ### The wait -/

theorem accesses_waitUpdated (h : r.waitUpdated fuel s = some s') :
    s.accesses + 2 ≤ s'.accesses := by
  induction fuel generalizing s with
  | zero => cases h
  | succ fuel ih =>
      rw [waitUpdated] at h
      dsimp only at h
      split at h
      · have hrest : s.accesses + 2 + 2 ≤ s'.accesses := ih h
        omega
      · obtain rfl := Option.some.inj h
        exact Nat.le_refl _

end Reads

/-! ### The two functions -/

section Results

variable {r} {s s' : Cmos} {tm : TimeT} {fuel v : Nat}

theorem getTime_field {rightFirst : Bool} {field : Nat}
    (h : r.getTime rightFirst fuel field s = some (v, s')) :
    s.accesses + 6 ≤ s'.accesses ∧
      let m := s'.accesses - 3
      v = (r.seen (field % 256) (if rightFirst then m + 2 else m)).toNat / 16 * 10 +
        (r.seen (field % 256) (if rightFirst then m else m + 2)).toNat % 16 := by
  obtain ⟨s1, hwait, hread⟩ := Option.bind_eq_some_iff.mp h
  have hle := accesses_waitUpdated hwait
  rw [bcdConverter_eq, Option.some.injEq, Prod.mk.injEq] at hread
  obtain ⟨rfl, rfl⟩ := hread
  exact ⟨show s.accesses + 6 ≤ s1.accesses + 4 by omega, rfl⟩

theorem cmosReader_field {rightFirst : Nat → Bool}
    (h : r.cmosReader rightFirst fuel s = some (tm, s')) :
    s.accesses + 26 ≤ s'.accesses ∧ ∀ f : TimeField,
      let m := s'.accesses - 24 + 4 * (f.reg - timeRSecond) + 1
      tm.field f = ((r.seen f.reg (if rightFirst f.reg then m + 2 else m)).toNat / 16 * 10 +
        (r.seen f.reg (if rightFirst f.reg then m else m + 2)).toNat % 16) % 256 := by
  obtain ⟨s1, hwait, hread⟩ := Option.bind_eq_some_iff.mp h
  have hle := accesses_waitUpdated hwait
  simp only [bcdConverter_eq, Option.some.injEq, Prod.mk.injEq] at hread
  obtain ⟨rfl, rfl⟩ := hread
  refine ⟨show s.accesses + 26 ≤ s1.accesses + 4 + 4 + 4 + 4 + 4 + 4 by omega, fun f => ?_⟩
  cases f <;> simp only [TimeT.field, TimeField.reg] <;> rfl

theorem digits_mod (a b : UInt8) :
    (a.toNat / 16 * 10 + b.toNat % 16) % 256 = a.toNat / 16 * 10 + b.toNat % 16 := by
  have ha := a.toNat_lt
  omega

/-- **A field is a time the clock has shown** when its two reads share a digit; and only then, if
the register holds no third byte during the call. -/
theorem heldDuring_iff_agree (r : Rtc) (s : Cmos) (fuel : Nat) :
    (∀ (rightFirst : Bool) (field v : Nat) (s' : Cmos),
      (∀ u, IsBcd (r.held u (field % 256))) →
      r.getTime rightFirst fuel field s = some (v, s') →
      let m := s'.accesses - 3
      (r.Agree (field % 256) m → r.HeldDuring (field % 256) s s' v) ∧
        (r.HoldsReads (field % 256) m s s' →
          (r.HeldDuring (field % 256) s s' v ↔ r.Agree (field % 256) m))) ∧
    ∀ (rightFirst : Nat → Bool) (tm : TimeT) (s' : Cmos) (f : TimeField),
      (∀ u, IsBcd (r.held u f.reg)) →
      r.cmosReader rightFirst fuel s = some (tm, s') →
      let m := s'.accesses - 24 + 4 * (f.reg - timeRSecond) + 1
      (r.Agree f.reg m → r.HeldDuring f.reg s s' (tm.field f)) ∧
        (r.HoldsReads f.reg m s s' →
          (r.HeldDuring f.reg s s' (tm.field f) ↔ r.Agree f.reg m)) := by
  refine ⟨fun rightFirst field v s' hbcd h => ?_, fun rightFirst tm s' f hbcd h => ?_⟩
  · obtain ⟨hle, hfield⟩ := getTime_field h
    dsimp only at hfield ⊢
    rw [hfield]
    have henough := heldDuring_of_agree (m := s'.accesses - 3) rightFirst s s' hbcd
      (by omega) (by omega)
    exact ⟨henough, fun honly => ⟨agree_of_heldDuring hbcd honly, henough⟩⟩
  · obtain ⟨hle, hfield⟩ := cmosReader_field h
    have hreg : f.reg - timeRSecond ≤ 5 := by cases f <;> decide
    dsimp only at hfield ⊢
    rw [hfield f, digits_mod]
    have henough := heldDuring_of_agree (m := s'.accesses - 24 + 4 * (f.reg - timeRSecond) + 1)
      (rightFirst f.reg) s s' hbcd (by omega) (by omega)
    exact ⟨henough, fun honly => ⟨agree_of_heldDuring hbcd honly, henough⟩⟩

end Results

end Rtc

/-- A clock that goes from 19 to 20 seconds at instant 5. -/
def tickingRtc : Rtc where
  held u reg := if reg = timeRSecond then if u < 5 then 0x19 else 0x20 else 0
  instant := id
  forward := strictMono_id

theorem isBcd_tickingRtc (u reg : Nat) : IsBcd (tickingRtc.held u reg) := by
  unfold tickingRtc
  dsimp only
  split <;> [split; skip] <;> decide

theorem held_tickingRtc (u : Nat) : tickingRtc.held u (timeRSecond % 256) = 0x19 ∨
    tickingRtc.held u (timeRSecond % 256) = 0x20 := by
  change (if u < 5 then (0x19 : UInt8) else 0x20) = _ ∨
    (if u < 5 then (0x19 : UInt8) else 0x20) = _
  split
  · exact Or.inl rfl
  · exact Or.inr rfl

theorem heldDuring_iff_agree_tickingRtc :
    ¬ tickingRtc.HeldDuring (timeRSecond % 256) ⟨0, 0⟩ ⟨6, timeRSecond⟩ 10 ∧
      tickingRtc.HeldDuring timeRYear ⟨0, 0⟩ ⟨26, timeRYear⟩ 0 := by
  have hspec := Rtc.heldDuring_iff_agree tickingRtc ⟨0, 0⟩ 1
  have hsecond := (hspec.1 false timeRSecond 10 ⟨6, timeRSecond⟩ (isBcd_tickingRtc · _) rfl).2
    fun u _ => held_tickingRtc u
  have hyear := (hspec.2 (fun _ => false) ⟨10, 0, 0, 0, 0, 0⟩ ⟨26, timeRYear⟩ .year
    (isBcd_tickingRtc · _) rfl).1
  refine ⟨mt hsecond.mp ?_, hyear (Or.inl rfl)⟩
  rintro (hdigit | hdigit) <;> exact absurd hdigit (by decide)

/-- The second 10, which the clock has never shown. -/
theorem not_heldDuring : ¬ ∀ (r : Rtc) (rightFirst : Bool) (fuel field v : Nat) (s s' : Cmos),
    (∀ u reg, reg ≠ 0x0A → IsBcd (r.held u reg)) →
    r.getTime rightFirst fuel field s = some (v, s') → r.HeldDuring (field % 256) s s' v := by
  intro hall
  obtain ⟨u, -, hv⟩ := hall tickingRtc false 1 timeRSecond 10 ⟨0, 0⟩ ⟨6, timeRSecond⟩
    (fun u reg _ => isBcd_tickingRtc u reg) rfl
  rcases held_tickingRtc u with hshown | hshown <;> rw [hshown] at hv <;>
    exact absurd hv (by decide)

end Vulcanos
