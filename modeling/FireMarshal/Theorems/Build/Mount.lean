import FireMarshal.Build.Mount

/-! What is left mounted when control leaves `mountImg`. The two methods with `run_with_retries` unmount once their
    `try` is entered; but `chown` comes before it, and guestunmount gets one attempt only. -/

namespace FireMarshal

open Raising

variable {env next : MountEnv} {s : MountState}

inductive MountMethod where
  | pwdlessSudo
  | firesim
  | guestmount
deriving DecidableEq, Repr

namespace MountEnv

def method (env : MountEnv) : MountMethod :=
  if env.pwdlessSudo then .pwdlessSudo else if env.fsimCmds then .firesim else .guestmount

structure Mounts (env : MountEnv) (s : MountState) : Prop where
  isFile : env.isFile = true
  free : s.mounted = false
  emptyRet : env.emptyRet = 1 ∨ env.emptyRet = 32
  fstype : env.method = .guestmount → ¬ "nfs".toList <:+: env.fstype.toList
  mount : env.mount = 0

theorem runUnmount_mounted : (env.runUnmount s).mounted = (s.mounted && decide (env.unmount s.unmounts ≠ 0)) := rfl

theorem runWithRetries_unmounts {attempts : Nat} (h : ∃ n < attempts, env.unmount (s.unmounts + n) = 0) :
    (env.runWithRetries attempts s).1.mounted = false := by
  induction attempts generalizing s with
  | zero =>
    obtain ⟨n, hn, -⟩ := h
    omega
  | succ attempts ih =>
    obtain ⟨n, hn, hzero⟩ := h
    rw [runWithRetries]
    split
    · next hnow => simp [runUnmount_mounted, hnow]
    · next hnow =>
      -- The first attempt fails, so that the one that succeeds comes later.
      cases n with
      | zero => exact absurd hzero hnow
      | succ n =>
        rw [if_neg (by omega)]
        refine ih ⟨n, by omega, ?_⟩
        rw [← hzero, runUnmount, Nat.add_assoc, Nat.add_comm 1]

/-! ### The three methods -/

theorem runMount_of_zero (h : env.mount = 0) : env.runMount s = ({ s with mounted := true }, none) := by
  simp [runMount, run, h]

theorem run_zero {returncode : Int} (h : returncode = 0) : run returncode s = (s, none) := by rw [run, if_pos h]

theorem run_ne_zero {returncode : Int} (h : returncode ≠ 0) :
    run returncode s = (s, some (.calledProcessError returncode)) := by rw [run, if_neg h]

theorem withSudo_unmounts (hmount : env.mount = 0) (hunmount : ∃ n < 3, env.unmount (s.unmounts + n) = 0) :
    (env.withSudo s).1.mounted = false ↔ env.chown = 0 := by
  rw [withSudo, runMount_of_zero hmount, andThen_done]
  by_cases hchown : env.chown = 0
  · rw [run_zero hchown, andThen_done]
    exact iff_of_true (runWithRetries_unmounts hunmount) hchown
  · -- The exception comes before the `try`.
    rw [run_ne_zero hchown, andThen_raised]
    exact iff_of_false (by simp) hchown

theorem withFiresim_unmounts (hmount : env.mount = 0) (hunmount : ∃ n < 3, env.unmount (s.unmounts + n) = 0) :
    (env.withFiresim s).1.mounted = false := by
  rw [withFiresim, runMount_of_zero hmount, andThen_done]
  exact runWithRetries_unmounts hunmount

theorem withGuestmount_unmounts (hmount : env.mount = 0) :
    (env.withGuestmount s).1.mounted = false ↔ env.unmount s.unmounts = 0 := by
  -- Neither reading the process id nor the body changes what is mounted.
  have hbody : (andThen (raises env.readPid { s with mounted := true }) (raises env.body)).1 =
      { s with mounted := true } := by
    cases hpid : env.readPid <;> simp [raises]
  rw [withGuestmount, runMount_of_zero hmount, andThen_done, andFinally, hbody]
  by_cases hzero : env.unmount s.unmounts = 0
  · rw [run_zero hzero, andThen_done]
    exact iff_of_true (by simp [raises, runUnmount_mounted, hzero]) hzero
  · rw [run_ne_zero hzero, andThen_raised]
    exact iff_of_false (by simp [runUnmount_mounted, hzero]) hzero

def via (env : MountEnv) (s : MountState) : MountMethod → MountState × Option MountError
  | .pwdlessSudo => env.withSudo s
  | .firesim => env.withFiresim s
  | .guestmount => env.withGuestmount s

theorem mountImg_of_mounts (h : env.Mounts s) : env.mountImg s = env.via s env.method := by
  have hret : ¬¬(env.emptyRet = 1 ∨ env.emptyRet = 32) := not_not.mpr h.emptyRet
  have hfstype := h.fstype
  simp only [mountImg, mountpoint, h.isFile, h.free, Bool.not_true, Bool.false_eq_true, if_false, hret, method]
    at hfstype ⊢
  split
  · rfl
  · next hsudo =>
    split
    · rfl
    · next hfsim =>
      rw [if_neg (hfstype (by simp [hsudo, hfsim]))]
      rfl

/-! ### The whole -/

/-- Nothing is mounted, so that no `mountImg` on the mount point finds it already mounted. -/
structure Released (s : MountState) : Prop where
  unmounted : s.mounted = false
  next : ∀ next : MountEnv, next.emptyRet = 1 ∨ next.emptyRet = 32 → next.mountpoint s = 1 ∨ next.mountpoint s = 32

theorem released_iff : Released s ↔ s.mounted = false := by
  refine ⟨Released.unmounted, fun h => ⟨h, fun next hret => ?_⟩⟩
  simpa [mountpoint, h] using hret

/-- After a successful mount, and if the unmount command succeeds within three runs, the mount point is free again
    exactly if a `chown` with sudo does not fail and guestunmount succeeds at once. -/
theorem mountImg_released_iff (env : MountEnv) (s : MountState) (h : env.Mounts s)
    (hunmount : ∃ n < 3, env.unmount (s.unmounts + n) = 0) :
    Released (env.mountImg s).1 ↔
      (env.method = .pwdlessSudo → env.chown = 0) ∧ (env.method = .guestmount → env.unmount s.unmounts = 0) := by
  rw [released_iff, mountImg_of_mounts h]
  cases env.method with
  | pwdlessSudo => simp [via, withSudo_unmounts h.mount hunmount]
  | firesim => simp [via, withFiresim_unmounts h.mount hunmount]
  | guestmount => simp [via, withGuestmount_unmounts h.mount]

def sudoHost : MountEnv where
  imgPath := "images/br-base.img"
  mntPath := "disk-mount"
  isFile := true
  emptyRet := 1
  pwdlessSudo := true
  fsimCmds := false
  fstype := "ext4"
  mount := 0
  chown := 0
  readPid := none
  body := some (.calledProcessError 1)
  unmount n := if n = 0 then 32 else 0
  removePid := none

theorem mountImg_released_body : Released (sudoHost.mountImg {}).1 :=
  (mountImg_released_iff sudoHost {} ⟨rfl, rfl, .inl rfl, fun h => absurd h (by decide), rfl⟩
    ⟨1, by decide, rfl⟩).mpr ⟨fun _ => rfl, fun h => absurd h (by decide)⟩

/-- A failed `chown` leaves the image mounted, and so does a guestunmount that fails once. -/
theorem mountImg_not_released :
    ¬ Released (MountEnv.mountImg { sudoHost with chown := 1 } {}).1 ∧
      ¬ Released (MountEnv.mountImg { sudoHost with pwdlessSudo := false } {}).1 := by
  constructor
  · intro h
    exact absurd h.unmounted (by decide)
  · intro h
    exact absurd h.unmounted (by decide)

end MountEnv
end FireMarshal
