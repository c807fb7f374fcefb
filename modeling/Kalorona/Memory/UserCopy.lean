import Kalorona.Memory.UvmcpyRuns

namespace Kalorona.Memory

open Kalorona.Data Kalorona.Utilities

/-! # Copies to and from user addresses

`vm_memcpyin` and `vm_memcpyout` go byte by byte and ask `vm_translate` for each,
which looks at no flag of the entry that `vm_walk` finds.
-/

variable {σ : Type} [PageAllocator σ]

def walkEntry (pgtbl va : Nat) (vm : Vmem σ) : Option Nat :=
  match vmWalk pgtbl va false vm with
  | .ok (entry, vm) => if entry = 0 then none else some (vm.memory.load64 entry)
  | .error _ => none

def userPointer (pte va : Nat) : Nat := pmaPa2Va (ptePa pte ||| (va &&& (pageSize - 1)))

def UserEntry (perm pgtbl va : Nat) (vm : Vmem σ) (pte : Nat) : Prop :=
  walkEntry pgtbl va vm = some pte ∧ pte &&& perm = perm

def NextByte (perm pgtbl va : Nat) (run : Nat → Result (Int × Vmem σ)) (i : Nat) (vm : Vmem σ) (pte : Nat) : Prop :=
  run i = .ok (0, vm) ∧ UserEntry perm pgtbl (ulong (va + i)) vm pte

/-- One call, whose first `i` bytes are `run i`, returns; each byte that it moves is moved through an
entry with the permissions, each byte that it changes is one that `Effect` allows for such an entry,
and it returns -1 if it reaches a page without them. -/
def Protected (perm pgtbl va size : Nat) (run : Nat → Result (Int × Vmem σ)) (vm : Vmem σ)
    (Effect : Nat → Vmem σ → Nat → Nat → UInt8 → Prop) : Prop :=
  ∃ ret after, run size = .ok (ret, after) ∧
    (∀ i < size, ∀ vm next, run i = .ok (0, vm) → run (i + 1) = .ok (0, next) →
      ∃ pte, UserEntry perm pgtbl (ulong (va + i)) vm pte) ∧
    (∀ address, after.memory address ≠ vm.memory address → ∃ i < size, ∃ vm pte, NextByte perm pgtbl va run i vm pte ∧
        Effect i vm pte address (after.memory address)) ∧
    ((∃ i < size, ∃ vm, run i = .ok (0, vm) ∧ ¬ ∃ pte, UserEntry perm pgtbl (ulong (va + i)) vm pte) → ret = -1)

/-- `vm_memcpyout` only changes bytes of frames mapped with V, U and W. -/
def CopyoutProtected (pgtbl vdst src size : Nat) (vm : Vmem σ) : Prop :=
  Protected (pteFlagV ||| pteFlagU ||| pteFlagW) pgtbl vdst size
    (fun size => vmMemcpyout pgtbl vdst src size vm) vm
    (fun i _ pte address _ => address = userPointer pte (ulong (vdst + i)))

/-- `vm_memcpyin` only reads bytes of frames mapped with V and U. -/
def CopyinProtected (pgtbl dst vsrc size : Nat) (vm : Vmem σ) : Prop :=
  Protected (pteFlagV ||| pteFlagU) pgtbl vsrc size
    (fun size => vmMemcpyin pgtbl dst vsrc size vm) vm
    (fun i vm pte address byte => address = ulong (dst + i) ∧ byte = vm.memory (userPointer pte (ulong (vsrc + i))))

/-- The entries that the call finds for the bytes it reaches have the permissions. -/
def EntriesPermit (perm pgtbl va size : Nat) (run : Nat → Result (Int × Vmem σ)) : Prop :=
  ∀ i < size, ∀ vm pte, run i = .ok (0, vm) → walkEntry pgtbl (ulong (va + i)) vm = some pte →
    pte &&& perm = perm

/-- Byte by byte, `transfer` moves a byte between a user and a kernel address. -/
def userCopy (transfer : Nat → Nat → Memory → Memory) (pgtbl user kernel : Nat) :
    Nat → Vmem σ → Result (Int × Vmem σ)
  | 0, vm => .ok (0, vm)
  | size + 1, vm => do
      let tmpPtr ← vmTranslate pgtbl user vm
      if tmpPtr = 0 then return (-1, vm)
      userCopy transfer pgtbl (ulong (user + 1)) (ulong (kernel + 1)) size
        { vm with memory := transfer tmpPtr kernel vm.memory }

theorem vmMemcpyout_eq (pgtbl vdst src size : Nat) (vm : Vmem σ) : vmMemcpyout pgtbl vdst src size vm =
      userCopy (fun user kernel memory => memory.store user (memory kernel)) pgtbl vdst src size vm := by
  induction size generalizing vdst src vm with
  | zero => rfl
  | succ size ih => simp only [vmMemcpyout, userCopy, ih]

theorem vmMemcpyin_eq (pgtbl dst vsrc size : Nat) (vm : Vmem σ) : vmMemcpyin pgtbl dst vsrc size vm =
      userCopy (fun user kernel memory => memory.store kernel (memory user)) pgtbl vsrc dst size vm := by
  induction size generalizing dst vsrc vm with
  | zero => rfl
  | succ size ih => simp only [vmMemcpyin, userCopy, ih]

theorem userPointer_ne_zero (pte va : Nat) : userPointer pte va ≠ 0 := pmaPa2Va_ne_zero _

theorem walkEntry_eq (root va : Nat) (vm : Vmem σ) : walkEntry (frameVa root) va vm =
      (sv39.follow (cells vm.memory) root (tablePath 0 va)).map
        (fun bottom => cells vm.memory bottom (digit 0 va)) := by
  rw [walkEntry, vmWalk_find]
  cases sv39.follow (cells vm.memory) root (tablePath 0 va) with
  | none => rfl
  | some bottom => exact if_neg (entryAddr_ne_zero bottom _)

theorem vmTranslate_eq (root va : Nat) (vm : Vmem σ) : vmTranslate (frameVa root) va vm =
      .ok ((walkEntry (frameVa root) va vm).elim 0 (fun pte => userPointer pte va)) := by
  rw [walkEntry_eq, vmTranslate, vmWalk_find]
  cases sv39.follow (cells vm.memory) root (tablePath 0 va) with
  | none => rfl
  | some bottom => exact if_neg (entryAddr_ne_zero bottom _)

section
variable {transfer : Nat → Nat → Memory → Memory} {root user kernel : Nat} {vm : Vmem σ}

theorem userCopy_one (transfer : Nat → Nat → Memory → Memory) (root user kernel : Nat) (vm : Vmem σ) :
    userCopy transfer (frameVa root) user kernel 1 vm =
      (walkEntry (frameVa root) user vm).elim (.ok (-1, vm)) (fun pte =>
        .ok (0, { vm with memory := transfer (userPointer pte user) kernel vm.memory })) := by
  simp only [userCopy, vmTranslate_eq, Result.ok_bind]
  cases walkEntry (frameVa root) user vm with
  | none => rfl
  | some pte => exact if_neg (userPointer_ne_zero pte user)

theorem userCopy_succ (size : Nat) (userSmall : user < 2 ^ 64) (kernelSmall : kernel < 2 ^ 64) :
    userCopy transfer (frameVa root) user kernel (size + 1) vm = (do
      let (ret, vm) ← userCopy transfer (frameVa root) user kernel size vm
      if ret = 0 then
        userCopy transfer (frameVa root) (ulong (user + size)) (ulong (kernel + size)) 1 vm
      else return (ret, vm)) := by
  induction size generalizing user kernel vm with
  | zero =>
    simp only [Nat.add_zero, ulong_of_lt userSmall, ulong_of_lt kernelSmall]
    rfl
  | succ size ih =>
    have shift : ∀ address, ulong (ulong (address + 1) + size) = ulong (address + (size + 1)) := by
      intro address
      unfold ulong
      omega
    rw [userCopy, userCopy, vmTranslate_eq]
    simp only [Result.ok_bind]
    cases walkEntry (frameVa root) user vm with
    | none => rfl
    | some pte =>
      simp only [Option.elim_some, userPointer_ne_zero, if_false]
      rw [ih (ulong_lt _) (ulong_lt _), shift, shift]

variable (userSmall : user < 2 ^ 64) (kernelSmall : kernel < 2 ^ 64)
include userSmall kernelSmall

theorem userCopy_next {size : Nat} {middle : Vmem σ}
    (reached : userCopy transfer (frameVa root) user kernel size vm = .ok (0, middle)) :
    userCopy transfer (frameVa root) user kernel (size + 1) vm =
      (walkEntry (frameVa root) (ulong (user + size)) middle).elim (.ok (-1, middle)) (fun pte =>
        .ok (0, ⟨transfer (userPointer pte (ulong (user + size))) (ulong (kernel + size)) middle.memory,
          middle.pages⟩)) := by
  rw [userCopy_succ size userSmall kernelSmall, reached, ← userCopy_one]
  rfl

theorem userCopy_stopped {size : Nat} {ret : Int} {after : Vmem σ} (stopped : ret ≠ 0)
    (returned : userCopy transfer (frameVa root) user kernel size vm = .ok (ret, after)) :
    userCopy transfer (frameVa root) user kernel (size + 1) vm = .ok (ret, after) := by
  rw [userCopy_succ size userSmall kernelSmall, returned]
  exact if_neg stopped

theorem userCopy_missing {i size : Nat} {middle : Vmem σ} (later : i < size)
    (reached : userCopy transfer (frameVa root) user kernel i vm = .ok (0, middle))
    (missing : walkEntry (frameVa root) (ulong (user + i)) middle = none) :
    userCopy transfer (frameVa root) user kernel size vm = .ok (-1, middle) := by
  induction size, Nat.succ_le_of_lt later using Nat.le_induction with
  | base =>
    rw [Nat.succ_eq_add_one, userCopy_next userSmall kernelSmall reached, missing]
    rfl
  | succ size _ ih => exact userCopy_stopped userSmall kernelSmall (by decide) (ih (by omega))

theorem userCopy_changes (size : Nat) :
    ∃ ret after, userCopy transfer (frameVa root) user kernel size vm = .ok (ret, after) ∧
      ∀ address, after.memory address ≠ vm.memory address →
        ∃ i < size, ∃ middle pte,
          userCopy transfer (frameVa root) user kernel i vm = .ok (0, middle) ∧
          walkEntry (frameVa root) (ulong (user + i)) middle = some pte ∧
          after.memory address ≠ middle.memory address ∧
          after.memory address =
            transfer (userPointer pte (ulong (user + i))) (ulong (kernel + i)) middle.memory address := by
  induction size with
  | zero => exact ⟨0, vm, rfl, fun address changed => absurd rfl changed⟩
  | succ size ih =>
    obtain ⟨ret, middle, returned, earlier⟩ := ih
    by_cases goes : ret = 0
    · subst goes
      have next := userCopy_next userSmall kernelSmall returned
      cases found : walkEntry (frameVa root) (ulong (user + size)) middle with
      | none =>
        rw [found] at next
        refine ⟨-1, middle, next, fun address changed => ?_⟩
        obtain ⟨i, before, rest⟩ := earlier address changed
        exact ⟨i, by omega, rest⟩
      | some pte =>
        rw [found] at next
        refine ⟨0, _, next, fun address changed => ?_⟩
        -- either the last byte changed the address, or an earlier one did
        by_cases same : transfer (userPointer pte (ulong (user + size))) (ulong (kernel + size))
            middle.memory address = middle.memory address
        · dsimp only at changed ⊢
          rw [same] at changed ⊢
          obtain ⟨i, before, rest⟩ := earlier address changed
          exact ⟨i, by omega, rest⟩
        · exact ⟨size, by omega, middle, pte, returned, found, same, rfl⟩
    · refine ⟨ret, middle, userCopy_stopped userSmall kernelSmall goes returned, ?_⟩
      intro address changed
      obtain ⟨i, before, rest⟩ := earlier address changed
      exact ⟨i, by omega, rest⟩

theorem userCopy_protected_iff {perm size : Nat} {Effect : Nat → Vmem σ → Nat → Nat → UInt8 → Prop}
    (effect : ∀ i (middle : Vmem σ) pte address,
      transfer (userPointer pte (ulong (user + i))) (ulong (kernel + i)) middle.memory address ≠
        middle.memory address →
      Effect i middle pte address
        (transfer (userPointer pte (ulong (user + i))) (ulong (kernel + i)) middle.memory address)) :
    Protected perm (frameVa root) user size
        (fun size => userCopy transfer (frameVa root) user kernel size vm) vm Effect ↔
      EntriesPermit perm (frameVa root) user size
        (fun size => userCopy transfer (frameVa root) user kernel size vm) := by
  constructor
  · rintro ⟨_, _, _, moved, _, _⟩ i before middle pte reached found
    have next := userCopy_next userSmall kernelSmall reached
    rw [found] at next
    obtain ⟨other, entry, permits⟩ := moved i before middle _ reached next
    cases found.symm.trans entry
    exact permits
  · intro permits
    obtain ⟨ret, after, returned, changes⟩ := @userCopy_changes _ _ transfer root _ _ vm userSmall kernelSmall size
    refine ⟨ret, after, returned, fun i before middle next reached moved => ?_, fun address changed => ?_, ?_⟩
    · cases found : walkEntry (frameVa root) (ulong (user + i)) middle with
      | none =>
        cases (userCopy_missing userSmall kernelSmall i.lt_succ_self reached found).symm.trans moved
      | some pte => exact ⟨pte, found, permits i before middle pte reached found⟩
    · obtain ⟨i, before, middle, pte, reached, found, differs, same⟩ := changes address changed
      refine ⟨i, before, middle, pte, ⟨reached, found, permits i before middle pte reached found⟩, ?_⟩
      rw [same] at differs ⊢
      exact effect i middle pte address differs
    · rintro ⟨i, before, middle, reached, none⟩
      cases found : walkEntry (frameVa root) (ulong (user + i)) middle with
      | none =>
        cases (userCopy_missing userSmall kernelSmall before reached found).symm.trans returned
        rfl
      | some pte => exact absurd ⟨pte, found, permits i before middle pte reached found⟩ none

end

/-- A call is protected exactly when the entries that it finds have the permissions. -/
theorem user_copies_protected_iff (root : Nat) (user kernel size : UInt64) (vm : Vmem σ) :
    (CopyoutProtected (frameVa root) user.toNat kernel.toNat size.toNat vm ↔
      EntriesPermit (pteFlagV ||| pteFlagU ||| pteFlagW) (frameVa root) user.toNat size.toNat
        (fun size => vmMemcpyout (frameVa root) user.toNat kernel.toNat size vm)) ∧
    (CopyinProtected (frameVa root) kernel.toNat user.toNat size.toNat vm ↔
      EntriesPermit (pteFlagV ||| pteFlagU) (frameVa root) user.toNat size.toNat
        (fun size => vmMemcpyin (frameVa root) kernel.toNat user.toNat size vm)) := by
  simp only [CopyoutProtected, CopyinProtected, vmMemcpyout_eq, vmMemcpyin_eq]
  refine ⟨userCopy_protected_iff user.toNat_lt kernel.toNat_lt ?_,
    userCopy_protected_iff user.toNat_lt kernel.toNat_lt ?_⟩
  · intro i middle pte address changed
    by_contra elsewhere
    exact changed (Memory.store_other _ elsewhere)
  · intro i middle pte address changed
    have target : address = ulong (kernel.toNat + i) := by
      by_contra elsewhere
      exact changed (Memory.store_other _ elsewhere)
    refine ⟨target, ?_⟩
    rw [target, Memory.store_same]

theorem chain_walkEntry {leaf : Nat} (small : leaf < 2 ^ 64) (pages : Kmem) :
    walkEntry (frameVa 1) 0 (⟨chain leaf, pages⟩ : Vmem Kmem) = some leaf := by
  have second : sv39.follow (cells (chain leaf)) 1 [0] = some 2 := by
    rw [Radix.follow_cons rfl, cells_chain small]
    exact sv39_child_entry (by decide) (by decide) (by decide)
  have third : sv39.follow (cells (chain leaf)) 1 [0, 0] = some 3 := by
    rw [Radix.follow_cons second, cells_chain small]
    exact sv39_child_entry (by decide) (by decide) (by decide)
  rw [walkEntry_eq, show tablePath 0 0 = [0, 0] from rfl, third, Option.map_some, cells_chain small]
  rfl

/-- A byte of a kernel page is written through an entry without U, and an entry that is zero is
taken for a mapping of frame 0. -/
theorem vmMemcpyout_writes_kernel_page : ∃ vm after other otherAfter : Vmem Kmem,
      walkEntry (frameVa 1) 0 vm = some (5 * 1024 + (pteFlagV ||| pteFlagR ||| pteFlagW)) ∧
      vmMemcpyout (frameVa 1) 0 (frameVa 1) 1 vm = .ok (0, after) ∧
      vm.memory (frameVa 5) = 0 ∧ after.memory (frameVa 5) = 1 ∧
      walkEntry (frameVa 1) 0 other = some 0 ∧
      vmMemcpyin (frameVa 1) (frameVa 6) 0 1 other = .ok (0, otherAfter) := by
  obtain ⟨kmem, _⟩ := sixteen_pages_sound
  have small : 5 * 1024 + 7 < 2 ^ 64 := by decide
  have entry := chain_walkEntry small kmem
  have missing := @chain_walkEntry 0 (by decide) kmem
  have reads : vmMemcpyin (frameVa 1) (frameVa 6) 0 1 (⟨chain 0, kmem⟩ : Vmem Kmem) =
      .ok (0, ⟨(chain 0).store (frameVa 6) (chain 0 (userPointer 0 0)), kmem⟩) := by
    rw [vmMemcpyin_eq, userCopy_one, missing]
    rfl
  refine ⟨⟨chain (5 * 1024 + 7), kmem⟩, ⟨(chain (5 * 1024 + 7)).store (userPointer (5 * 1024 + 7) 0)
    (chain (5 * 1024 + 7) (frameVa 1)), kmem⟩, ⟨chain 0, kmem⟩, _, entry, ?_, ?_, ?_, missing, reads⟩
  · rw [vmMemcpyout_eq, userCopy_one, entry]
    rfl
  · show chain (5 * 1024 + 7) (frameVa 5) = 0
    decide +kernel
  · dsimp only
    rw [show userPointer (5 * 1024 + 7) 0 = frameVa 5 by decide, Memory.store_same]
    decide +kernel

end Kalorona.Memory
