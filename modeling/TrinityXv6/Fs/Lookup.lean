import Mathlib.Data.Fintype.Card
import TrinityXv6.Fs.DirSpec

/-!
# A lookup in the root directory

What `namei` does with a path of one element when no other process runs: it loads the root
directory, finds the entry, and leaves a reference to the inode of the entry in the table, which
`ilock` then loads. The blocks of the root directory after the entry may be missing.
-/

namespace TrinityXv6

namespace Fs

open Threads Command
open Prog

variable {τ : Type} {sb : Superblock} {t : τ} {s : State τ} {ip : Slot} {i : ℕ}

/-- No inode is in use. -/
def State.Quiet (s : State τ) : Prop := ∀ j, (s.itable j).ref = 0 ∧ (s.itable j).lock = none

@[simp] theorem State.setInode_self (s : State τ) (ip : Slot) (x : Inode τ) :
    (s.setInode ip x).itable ip = x := Function.update_self ..

theorem State.setInode_of_ne (s : State τ) {j : Slot} (x : Inode τ) (h : j ≠ ip) :
    (s.setInode ip x).itable j = s.itable j := Function.update_of_ne h ..

theorem iget_of_free (hnone : ∀ j, 0 < (s.itable j).ref → (s.itable j).inum ≠ i)
    (hfree : ∃ j, (s.itable j).ref = 0) : ∃ ip, (s.itable ip).ref = 0 ∧
      iget i s = .ok (ip, s.setInode ip ⟨i, 1, false, (s.itable ip).lock, (s.itable ip).din⟩) := by
  have hfirst : ((List.finRange nInode).find? fun j =>
      0 < (s.itable j).ref ∧ (s.itable j).inum = i) = none := by
    refine List.find?_eq_none.mpr fun j _ h => ?_
    simp only [decide_eq_true_eq] at h
    exact hnone j h.1 h.2
  cases hsecond : (List.finRange nInode).find? fun j => (s.itable j).ref = 0 with
  | none =>
    obtain ⟨j, hj⟩ := hfree
    have := List.find?_eq_none.mp hsecond j (List.mem_finRange j)
    simp [hj] at this
  | some ip =>
    refine ⟨ip, by simpa using List.find?_some hsecond, ?_⟩
    rw [iget, hfirst, hsecond]

/-- **`ilock`** of an inode that is not loaded. -/
theorem ilock_load {d : Dinode} (hx : s.itable ip = ⟨i, 1, false, none, d⟩)
    (hi : i < sb.ninodes) (ht : ((s.store sb).din i).type ≠ 0) : (ilock sb ip).solo t s =
      some ((), s.setInode ip ⟨i, 1, true, some t, (s.store sb).din i⟩) := by
  have hd : getDinode (s.blocks (sb.iblock i)) (i % ipb) = (s.store sb).din i :=
    (Store.of_din hi).symm
  refine solo_atomic (w := []) ?_
  simp only [hx, hd, if_neg ht]
  rfl

section

variable (hi : (s.itable ip).inum = i) (hd : (s.itable ip).din = (s.store sb).din i)
include hi hd

/-- An inode as it is on the disk. -/
theorem State.eff_of_loaded : s.eff sb ip = s.store sb := by
  rw [State.eff, hi, hd, Store.edit_self]

theorem Editable.of_loaded (hlt : i < sb.ninodes)
    (ht : ((s.store sb).din i).type ≠ 0) (ho : (s.store sb).Owned sb) : Editable sb s ip where
  inum_lt := by rwa [hi]
  type_ne := by rwa [hd]
  owned := by rwa [State.eff_of_loaded hi hd]

end

variable [DecidableEq τ] {name : List UInt8}

/-- `iunlockput` of an inode that has links. -/
theorem iunlockput_linked {d : Dinode} (hx : s.itable ip = ⟨i, 1, true, some t, d⟩)
    (hn : d.nlink ≠ 0) :
    (iunlockput sb ip).solo t s = some ((), s.setInode ip ⟨i, 0, true, none, d⟩) := by
  have hunlock : (iunlock ip).solo t s = some ((), s.setInode ip ⟨i, 1, true, none, d⟩) := by
    refine solo_atomic (w := [.inode ip]) ?_
    simp [hx]
  have henter : (iputEnter ip).solo t (s.setInode ip ⟨i, 1, true, none, d⟩) =
      some ((false, i), (s.setInode ip ⟨i, 1, true, none, d⟩).setInode ip
        ⟨i, 0, true, none, d⟩) := by
    refine solo_atomic (w := []) ?_
    simp [hn]
  rw [iunlockput, solo_bind_of_solo hunlock, iput, solo_bind_of_solo henter]
  simp [State.setInode]

theorem skipelem_name (h0 : name ≠ []) (hs : slash ∉ name)
    (hl : name.length ≤ dirSiz) : skipelem (slash :: name) = some ([], name) := by
  obtain ⟨c, cs, rfl⟩ := List.exists_cons_of_ne_nil h0
  have hne : ∀ x ∈ c :: cs, x ≠ slash := fun x hx h => hs (h ▸ hx)
  have hfront : (slash :: c :: cs).dropWhile (· = slash) = c :: cs := by
    have hc := hne c (.head _)
    simp [hc]
  have htake : (c :: cs).takeWhile (· ≠ slash) = c :: cs :=
    List.takeWhile_eq_self_iff.mpr fun x hx => by simpa using hne x hx
  have hdrop : (c :: cs).dropWhile (· ≠ slash) = [] :=
    List.dropWhile_eq_nil_iff.mpr fun x hx => by simpa using hne x hx
  rw [skipelem, hfront]
  simp only [htake, hdrop, List.take_of_length_le hl]
  rfl

/-- **A lookup in the root directory.** -/
theorem namei_root (hq : s.Quiet) (hone : rootIno < sb.ninodes) (ho : (s.store sb).Owned sb)
    (hdir : ((s.store sb).din rootIno).type = tDir)
    (hlink : ((s.store sb).din rootIno).nlink ≠ 0) (hname : name ≠ [])
    (hslash : slash ∉ name) (hlen : name.length ≤ dirSiz) {m : ℕ}
    (hmap : ∀ bn, bn * bsize < 16 * m + 16 → (s.store sb).fileBlock rootIno bn ≠ 0)
    (hm : 16 * m + 16 ≤ ((s.store sb).din rootIno).size.toNat)
    (hlive : entInum ((s.store sb).content rootIno) m ≠ 0)
    (hroot : entInum ((s.store sb).content rootIno) m ≠ rootIno)
    (hent : entName ((s.store sb).content rootIno) m = cstr name)
    (hlow : ∀ m' < m, NotNamed ((s.store sb).content rootIno) name m') :
    ∃ ip s' d, (namei sb (slash :: name)).solo t s = some (some ip, s') ∧ s'.blocks = s.blocks ∧
      s'.itable ip = ⟨entInum ((s.store sb).content rootIno) m, 1, false, none, d⟩ := by
  -- the root directory gets a place in the table, and is loaded
  obtain ⟨dp, hdp, hget⟩ := iget_of_free
    (fun j hj => absurd hj (by rw [(hq j).1]; exact lt_irrefl 0)) ⟨0, (hq 0).1⟩
  set s₁ := s.setInode dp ⟨rootIno, 1, false, (s.itable dp).lock, (s.itable dp).din⟩ with hs₁
  have hx₁ : s₁.itable dp = ⟨rootIno, 1, false, none, (s.itable dp).din⟩ := by
    rw [hs₁, State.setInode_self, (hq dp).2]
  set S := s.store sb with hS
  have ht : (S.din rootIno).type ≠ 0 := by
    rw [hdir]
    decide
  have hlock : (ilock sb dp).solo t s₁ = some ((), s₁.setInode dp
      ⟨rootIno, 1, true, some t, S.din rootIno⟩) := ilock_load hx₁ hone ht
  set s₂ := s₁.setInode dp ⟨rootIno, 1, true, some t, S.din rootIno⟩ with hs₂
  have hx₂ : s₂.itable dp = ⟨rootIno, 1, true, some t, S.din rootIno⟩ := State.setInode_self ..
  have hother : ∀ j, j ≠ dp → s₂.itable j = s.itable j := fun j hj => by
    rw [hs₂, State.setInode_of_ne _ _ hj, hs₁, State.setInode_of_ne _ _ hj]
  have hinum : (s₂.itable dp).inum = rootIno := by rw [hx₂]
  have hdin : (s₂.itable dp).din = (s₂.store sb).din rootIno := by
    rw [hx₂]
    rfl
  have heff : s₂.eff sb dp = S := State.eff_of_loaded hinum hdin
  have he : Editable sb s₂ dp := .of_loaded hinum hdin hone ht ho
  -- the entry is found, and its inode gets a place as well
  have hlook : dirlookup sb t dp name s₂ =
      (iget (entInum (S.content rootIno) m) >>= fun ip => pure (some (ip, 16 * m))) s₂ := by
    have hfound := @dirlookup_found name τ sb t dp s₂ _ he m
    simp only [heff, hx₂] at hfound
    exact hfound hdir hmap hm hlive hent hlow
  have hfree : ∃ j, (s₂.itable j).ref = 0 := by
    obtain ⟨j, hj⟩ := exists_ne dp
    exact ⟨j, by rw [hother j hj, (hq j).1]⟩
  have hnone : ∀ j, 0 < (s₂.itable j).ref →
      (s₂.itable j).inum ≠ entInum (S.content rootIno) m := fun j hj => by
    by_cases hjd : j = dp
    · rw [hjd, hx₂]
      exact hroot.symm
    · rw [hother j hjd, (hq j).1] at hj
      exact absurd hj (lt_irrefl 0)
  obtain ⟨ip, hip, hget₂⟩ := iget_of_free hnone hfree
  have hne : ip ≠ dp := by
    rintro rfl
    rw [hx₂] at hip
    cases hip
  have hnolock : (s₂.itable ip).lock = none := by rw [hother ip hne, (hq ip).2]
  set s₃ := s₂.setInode ip ⟨entInum (S.content rootIno) m, 1, false, (s₂.itable ip).lock,
    (s₂.itable ip).din⟩ with hs₃
  rw [bind_of_ok hget₂] at hlook
  have hx₃ : s₃.itable dp = ⟨rootIno, 1, true, some t, S.din rootIno⟩ := by
    rw [hs₃, State.setInode_of_ne _ _ hne.symm, hx₂]
  have hput : (iunlockput sb dp).solo t s₃ =
      some ((), s₃.setInode dp ⟨rootIno, 0, true, none, S.din rootIno⟩) :=
    iunlockput_linked hx₃ hlink
  have hfrom : (namexFrom sb false ((slash :: name).length + 1) dp (slash :: name)).solo t s₁ =
      some (some (ip, []), s₃.setInode dp ⟨rootIno, 0, true, none, S.din rootIno⟩) := by
    have hdin : (din dp).solo t s₂ = some (S.din rootIno, s₂) := by
      refine solo_cmd ?_
      rw [hx₂]
    have hcmd : (Prog.cmd fun t => dirlookup sb t dp name : M τ (Option (Slot × ℕ))).solo t s₂ =
        some (some (ip, 16 * m), s₃) := solo_cmd hlook
    rw [namexFrom, skipelem_name hname hslash hlen]
    simp only
    rw [solo_bind_of_solo hlock, solo_bind_of_solo hdin, if_neg (not_not.mpr hdir),
      if_neg hlink, if_neg (by simp), solo_bind_of_solo hcmd]
    simp only
    rw [solo_bind_of_solo hput]
    rfl
  refine ⟨ip, s₃.setInode dp ⟨rootIno, 0, true, none, S.din rootIno⟩, (s₂.itable ip).din,
    ?_, rfl, ?_⟩
  · have hstart : (Prog.cmd fun t => namexStart t (slash :: name) : M τ Slot).solo t s =
        some (dp, s₁) := solo_cmd hget
    rw [namei, namex, bind_assoc, solo_bind_of_solo hstart, solo_bind_of_solo hfrom]
    rfl
  · rw [State.setInode_of_ne _ _ hne, hs₃, State.setInode_self, hnolock]

end Fs

end TrinityXv6
