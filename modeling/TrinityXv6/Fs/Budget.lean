import Mathlib.Data.Fintype.Card
import TrinityXv6.Fs.Files
import TrinityXv6.Fs.Syscall

/-!
# What one chunk of `filewrite` logs

`filewrite` cuts a write into chunks so small that the blocks one chunk logs fit the reservation of
its operation, on a disk with any number of bitmap blocks. The bound is met exactly: a chunk that
starts inside a block touches four data blocks, but the first of them must already be there, so it
allocates three of them and perhaps the indirect block, and each allocation may log a bitmap block
of its own. With the indirect block and the inode this makes `4 + 4 + 1 + 1 = MAXOPBLOCKS`.

Nothing here depends on who owns which block. The count is kept by three lists: the data blocks,
the bitmap blocks, and the indirect block once it has been logged.

## Main definitions

* `Spent` — the blocks a write has logged so far, by kind

## Main results

* `writeiFrom_spent` — a write that starts at the beginning of a block
* `chunk_fits_log` — one chunk logs at most `MAXOPBLOCKS` blocks
-/

namespace TrinityXv6

namespace Fs

open Command
open List

variable {τ : Type} {sb : Superblock} {t : τ} {ip : Slot} {s s' s₀ : State τ} {E : Halt → Prop}

/-- The address of the indirect block of an inode in memory. -/
def rootAddr (s : State τ) (ip : Slot) : UInt32 := (s.itable ip).din.addrs rootSlot

/-- The address of block `bn` of an inode in memory, `0` if it has none. -/
def blockAt (s : State τ) (ip : Slot) (bn : ℕ) : UInt32 :=
  if h : bn < ndirect then (s.itable ip).din.addrs ⟨bn, Nat.lt_succ_of_lt h⟩
  else if rootAddr s ip = 0 then 0
  else Bytes.getU32 (s.blocks (rootAddr s ip).toNat) (4 * (bn - ndirect))

variable [DecidableEq τ] {bn : ℕ}

/-! ## Allocations -/

theorem ballocIn_logs (hop : s.ops ≠ []) (b : ℕ) :
    Ends (ballocIn sb t b s) (fun r s' => (r = none ∧ s' = s) ∨ ∃ a, r = some a ∧ a < sb.size ∧
      s'.itable = s.itable ∧ ∃ m, Frame t (fun _ => False) (· ∈ [m, a]) s s') E := by
  rw [ballocIn, bread_bind]
  cases hf : (List.range (min bpb (sb.size - b))).find? fun bi =>
      !Bytes.bit (s.blocks (sb.bblock b)) bi with
  | none => exact .inl ⟨rfl, rfl⟩
  | some bi =>
    have hbi : bi < min bpb (sb.size - b) := mem_range.mp (mem_of_find?_eq_some hf)
    refine (logWrite_spec hop _ _).bind fun _ s₁ hpost => ?_
    obtain ⟨_, hit₁, hfr₁⟩ := hpost
    refine (logWrite_spec (hfr₁.ops_ne_nil hop) _ _).bind fun _ s₂ hpost => ?_
    obtain ⟨_, hit₂, hfr₂⟩ := hpost
    refine .inr ⟨b + bi, rfl, by omega, hit₂.trans hit₁, sb.bblock b, ?_⟩
    refine (hfr₁.mono (fun _ => id) ?_).trans (hfr₂.mono (fun _ => id) ?_)
    · rintro c rfl
      simp
    · rintro c rfl
      simp

section

variable (hsize : sb.size < 2 ^ 32) (hop : s.ops ≠ [])
include hsize hop

/-- **`balloc`** logs a block of the bitmap and the block it returns. -/
theorem balloc_logs : Ends (balloc sb t s) (fun a s' => s'.itable = s.itable ∧
      ∃ m, Frame t (fun _ => False) (· ∈ [m, a.toNat]) s s') E := by
  have key : ∀ n b, Ends (ballocFrom sb t n b s) (fun a s' => s'.itable = s.itable ∧
      ∃ m, Frame t (fun _ => False) (· ∈ [m, a.toNat]) s s') E := by
    intro n
    induction n with
    | zero => exact fun b => ⟨rfl, 0, .refl ..⟩
    | succ n ih =>
      intro b
      refine (ballocIn_logs hop b).bind fun r s' h => ?_
      obtain ⟨rfl, rfl⟩ | ⟨a, rfl, ha, hit, m, hfr⟩ := h
      · exact ih (b + bpb)
      · have hval : (UInt32.ofNat a).toNat = a := by
          rw [UInt32.toNat_ofNat']
          exact Nat.mod_eq_of_lt (by omega)
        refine ⟨hit, m, ?_⟩
        rwa [hval]
  exact key _ 0

theorem bmapAddr_logs (k : Fin (ndirect + 1)) : Ends (bmapAddr sb t ip k s) (fun a s' =>
      ((s.itable ip).din.addrs k ≠ 0 ∧ s' = s ∧ a = (s.itable ip).din.addrs k) ∨
      (s.itable ip).din.addrs k = 0 ∧ (∃ m, Frame t (· = ip) (· ∈ [m, a.toNat]) s s') ∧
        (s'.itable ip).din.addrs = Function.update (s.itable ip).din.addrs k a) E := by
  rw [bmapAddr, inode_bind]
  by_cases h0 : (s.itable ip).din.addrs k = 0
  · rw [if_pos h0]
    refine (balloc_logs hsize hop).bind fun a s₁ hpost => ?_
    obtain ⟨hit, m, hfr⟩ := hpost
    have hfr' : Frame t (· = ip) (· ∈ [m, a.toNat]) s s₁ := hfr.mono (fun _ h => h.elim) fun _ => id
    by_cases ha : a = 0
    · rw [if_pos ha]
      refine .inr ⟨h0, ⟨m, ?_⟩, ?_⟩
      · rwa [ha] at hfr'
      · rw [hit, ← h0, Function.update_eq_self]
    · rw [if_neg ha, setAddr_bind]
      refine .inr ⟨h0, ⟨m, hfr'.trans (.setDin (I := (· = ip)) rfl _)⟩, ?_⟩
      rw [State.setDin_itable_self, hit]
  · rw [if_neg h0]
    exact .inl ⟨h0, rfl, rfl⟩

theorem bmapEntry_logs (root j : ℕ) :
    Ends (bmapEntry sb t root j s) (fun a s' => s'.itable = s.itable ∧
      (s' = s ∨ ∃ m, Frame t (fun _ => False) (· ∈ [a.toNat, m, root]) s s')) E := by
  rw [bmapEntry, bread_bind]
  by_cases h0 : Bytes.getU32 (s.blocks root) (4 * j) = 0
  · rw [if_pos h0]
    refine (balloc_logs hsize hop).bind fun a s₁ hpost => ?_
    obtain ⟨hit, m, hfr⟩ := hpost
    have hfr' : Frame t (fun _ => False) (· ∈ [a.toNat, m, root]) s s₁ :=
      hfr.mono (fun _ => id) fun b hb => by
        simp only [mem_cons, not_mem_nil, or_false] at hb ⊢
        omega
    by_cases ha : a = 0
    · rw [if_pos ha]
      refine ⟨hit, .inr ⟨m, ?_⟩⟩
      rwa [ha] at hfr'
    · rw [if_neg ha]
      refine (logWrite_spec (hfr.ops_ne_nil hop) _ _).bind fun _ s₂ hpost => ?_
      obtain ⟨_, hit₂, hfr₂⟩ := hpost
      refine ⟨hit₂.trans hit, .inr ⟨m, hfr'.trans (hfr₂.mono (fun _ => id) ?_)⟩⟩
      rintro b rfl
      simp
  · rw [if_neg h0]
    exact ⟨rfl, .inl rfl⟩

/-- **`bmap`** logs the block it returns, bitmap blocks `M`, and perhaps the indirect block: one
bitmap block for the block of the file, and a second one only if the indirect block is new. -/
theorem bmap_logs (hbn : bn < maxFile) : Ends (bmap sb t ip bn s) (fun a s' => ∃ M R : List ℕ,
      Frame t (· = ip) (· ∈ a.toNat :: (M ++ R)) s s' ∧
      ((R = [] ∧ M.length ≤ 1 ∧ rootAddr s' ip = rootAddr s ip) ∨
        R = [(rootAddr s' ip).toNat] ∧ rootAddr s' ip ≠ 0 ∧ M.length ≤ 2 ∧
          (rootAddr s ip ≠ 0 → rootAddr s' ip = rootAddr s ip ∧ M.length ≤ 1))) E := by
  have hdir : (Fin.last ndirect).val = ndirect := rfl
  rw [bmap]
  by_cases hd : bn < ndirect
  · rw [dif_pos hd]
    refine (bmapAddr_logs hsize hop _).imp fun a s' h => ?_
    obtain ⟨-, rfl, -⟩ | ⟨-, ⟨m, hfr⟩, haddr⟩ := h
    · exact ⟨[], [], .refl .., .inl ⟨rfl, Nat.zero_le _, rfl⟩⟩
    · refine ⟨[m], [], hfr.mono (fun _ => id) fun b hb => ?_, .inl ⟨rfl, le_rfl, ?_⟩⟩
      · simpa [or_comm] using hb
      · rw [rootAddr, haddr, Function.update_of_ne]
        · rfl
        · intro heq
          have := congrArg Fin.val heq
          simp only [hdir] at this
          omega
  · have hin : bn - ndirect < nindirect := by
      have : bn < ndirect + nindirect := hbn
      omega
    rw [dif_neg hd, if_pos hin]
    refine (bmapAddr_logs hsize hop rootSlot).bind fun r s₁ h => ?_
    obtain ⟨hr0, rfl, rfl⟩ | ⟨hr0, ⟨m, hfr⟩, haddr⟩ := h
    · -- the indirect block is there
      rw [if_neg hr0]
      refine (bmapEntry_logs hsize hop _ _).imp fun a s' hpost => ?_
      obtain ⟨hit, h'⟩ := hpost
      have hroot : rootAddr s' ip = rootAddr s₁ ip := by rw [rootAddr, hit]; rfl
      obtain rfl | ⟨m, hfr⟩ := h'
      · exact ⟨[], [], .refl .., .inl ⟨rfl, Nat.zero_le _, rfl⟩⟩
      · refine ⟨[m], [(rootAddr s' ip).toNat], hfr.mono (fun _ h => h.elim) fun b hb => ?_,
          .inr ⟨rfl, ?_, by simp, fun _ => ⟨hroot, le_rfl⟩⟩⟩
        · rw [hroot]
          exact hb
        · rw [hroot]
          exact hr0
    · have hroot : rootAddr s₁ ip = r := by rw [rootAddr, haddr, Function.update_self]
      by_cases hr : r = 0
      · -- no block for the indirect block
        rw [if_pos hr]
        refine ⟨[m], [], hfr.mono (fun _ => id) fun b hb => ?_, .inl ⟨rfl, le_rfl, ?_⟩⟩
        · rw [hr] at hb
          simpa [or_comm] using hb
        · rw [hroot, hr]
          exact hr0.symm
      · rw [if_neg hr]
        refine (bmapEntry_logs hsize (hfr.ops_ne_nil hop) _ _).imp fun a s' hpost => ?_
        obtain ⟨hit, h'⟩ := hpost
        have hroot' : rootAddr s' ip = r := by rw [rootAddr, hit, ← hroot]; rfl
        have hnew : ¬ rootAddr s ip ≠ 0 := fun h => h hr0
        obtain rfl | ⟨m', hfr'⟩ := h'
        · refine ⟨[m], [(rootAddr s' ip).toNat], hfr.mono (fun _ => id) fun b hb => ?_,
            .inr ⟨rfl, by rwa [hroot'], by simp, fun h => absurd h hnew⟩⟩
          rw [hroot']
          exact .tail _ hb
        · refine ⟨[m, m'], [(rootAddr s' ip).toNat], (hfr.mono (fun _ => id) fun b hb => ?_).trans
            (hfr'.mono (fun _ h => h.elim) fun b hb => ?_),
            .inr ⟨rfl, by rwa [hroot'], le_rfl, fun h => absurd h hnew⟩⟩
          · rw [hroot']
            simp only [mem_cons, not_mem_nil, or_false, cons_append, nil_append] at hb ⊢
            omega
          · rw [hroot']
            simp only [mem_cons, not_mem_nil, or_false, cons_append, nil_append] at hb ⊢
            omega

end

/-- A block that is there is found without any change. -/
theorem bmap_of_blockAt (hbn : bn < maxFile) (h : blockAt s ip bn ≠ 0) :
    bmap sb t ip bn s = .ok (blockAt s ip bn, s) := by
  rw [bmap]
  rw [blockAt] at h ⊢
  by_cases hd : bn < ndirect
  · rw [dif_pos hd] at h ⊢
    rw [dif_pos hd, bmapAddr, inode_bind, if_neg h]
    rfl
  · have hin : bn - ndirect < nindirect := by
      have : bn < ndirect + nindirect := hbn
      omega
    rw [dif_neg hd] at h ⊢
    rw [dif_neg hd, if_pos hin]
    by_cases hr : rootAddr s ip = 0
    · rw [if_pos hr] at h
      exact absurd rfl h
    · rw [if_neg hr] at h ⊢
      have hr' : (s.itable ip).din.addrs rootSlot ≠ 0 := hr
      have hrun : bmapAddr sb t ip rootSlot s = .ok (rootAddr s ip, s) := by
        rw [bmapAddr, inode_bind, if_neg hr']
        rfl
      rw [bind_of_ok hrun, if_neg hr, bmapEntry, bread_bind, if_neg h]
      rfl

/-! ## The count -/

/-- Since state `s₀` a write has logged at most `d` data blocks, at most `k` bitmap blocks for them,
and perhaps the indirect block, which may have cost one more bitmap block. -/
def Spent (t : τ) (ip : Slot) (d k : ℕ) (s₀ s : State τ) : Prop :=
  ∃ D M R : List ℕ, Frame t (· = ip) (· ∈ D ++ M ++ R) s₀ s ∧ D.length ≤ d ∧
    M.length ≤ k + R.length ∧ (R = [] ∨ R = [(rootAddr s ip).toNat] ∧ rootAddr s ip ≠ 0)

theorem Spent.start (t : τ) (ip : Slot) (s : State τ) : Spent t ip 0 0 s s :=
  ⟨[], [], [], .refl .., le_rfl, le_rfl, .inl rfl⟩

namespace Spent

variable {d k : ℕ}

theorem mono {d' k' : ℕ} (h : Spent t ip d k s₀ s) (hd : d ≤ d') (hk : k ≤ k') :
    Spent t ip d' k' s₀ s := by
  obtain ⟨D, M, R, hfr, hD, hM, hR⟩ := h
  exact ⟨D, M, R, hfr, by omega, by omega, hR⟩

/-- A block of the file, which may have been allocated. -/
theorem bmap (h : Spent t ip d k s₀ s) (hsize : sb.size < 2 ^ 32) (hop : s.ops ≠ [])
    (hbn : bn < maxFile) : Ends (Fs.bmap sb t ip bn s) (fun a s' => s'.ops ≠ [] ∧ ∃ D M R : List ℕ,
      Frame t (· = ip) (· ∈ (a.toNat :: D) ++ M ++ R) s₀ s' ∧ D.length ≤ d ∧
      M.length ≤ k + 1 + R.length ∧
      (R = [] ∨ R = [(rootAddr s' ip).toNat] ∧ rootAddr s' ip ≠ 0)) E := by
  obtain ⟨D, M, R, hfr, hD, hM, hR⟩ := h
  refine (bmap_logs hsize hop hbn).imp fun a s' hpost => ?_
  obtain ⟨M', R', hfr', h'⟩ := hpost
  refine ⟨hfr'.ops_ne_nil hop, ?_⟩
  rcases h' with ⟨rfl, hM', hroot⟩ | ⟨hR', hne, hM', hkept⟩
  · refine ⟨D, M' ++ M, R, (hfr.mono (fun _ => id) fun b hb => ?_).trans
      (hfr'.mono (fun _ => id) fun b hb => ?_), hD, ?_, ?_⟩
    · simp only [mem_append, mem_cons] at hb ⊢
      tauto
    · simp only [mem_append, mem_cons, not_mem_nil, or_false] at hb ⊢
      tauto
    · rw [length_append]
      omega
    · rwa [hroot]
  · refine ⟨D, M' ++ M, R', (hfr.mono (fun _ => id) fun b hb => ?_).trans
      (hfr'.mono (fun _ => id) fun b hb => ?_), hD, ?_, .inr ⟨hR', hne⟩⟩
    · -- an indirect block that was logged before is still the same one
      have hsub : b ∈ R → b ∈ R' := fun hbR => by
        rcases hR with rfl | ⟨rfl, hne'⟩
        · cases hbR
        · rw [hR', (hkept hne').1]
          exact hbR
      simp only [mem_append, mem_cons] at hb ⊢
      tauto
    · simp only [mem_append, mem_cons] at hb ⊢
      tauto
    · rw [length_append, hR', length_singleton]
      rcases hR with rfl | ⟨rfl, hne'⟩
      · rw [length_nil] at hM
        omega
      · have := (hkept hne').2
        rw [length_singleton] at hM
        omega

/-- The copy into that block. -/
theorem copy {D M R : List ℕ} {a : UInt32}
    (hfr : Frame t (· = ip) (· ∈ (a.toNat :: D) ++ M ++ R) s₀ s) (hD : D.length ≤ d)
    (hM : M.length ≤ k + R.length)
    (hR : R = [] ∨ R = [(rootAddr s ip).toNat] ∧ rootAddr s ip ≠ 0) (hop : s.ops ≠ []) (x : Blk) :
    Ends (logWrite t a.toNat x s) (fun _ s' => s'.ops ≠ [] ∧ Spent t ip (d + 1) k s₀ s') E := by
  refine (logWrite_spec hop _ _).imp fun _ s' hpost => ?_
  obtain ⟨_, hit, hfr'⟩ := hpost
  refine ⟨hfr'.ops_ne_nil hop, ?_⟩
  refine ⟨a.toNat :: D, M, R, hfr.trans (hfr'.mono (fun _ h => h.elim) ?_), ?_, hM, ?_⟩
  · rintro b rfl
    simp
  · rw [length_cons]
    omega
  · rwa [rootAddr, hit]

end Spent

/-- How many blocks a range of `n` bytes covers that starts with a block. -/
def blocksOf (n : ℕ) : ℕ := (n + (bsize - 1)) / bsize

theorem blocksOf_step {n tot : ℕ} (h : tot < n) :
    blocksOf (n - (tot + min (n - tot) bsize)) + 1 = blocksOf (n - tot) := by
  show (n - (tot + min (n - tot) 1024) + 1023) / 1024 + 1 = (n - tot + 1023) / 1024
  omega

/-- **A write that starts at the beginning of a block** costs a data block and a bitmap block for
each of its blocks. -/
theorem writeiFrom_spent (hsize : sb.size < 2 ^ 32) (src : Source) {n fuel tot off d k : ℕ}
    (hoff : off % bsize = 0 ∨ n ≤ tot) (hmax : off + (n - tot) ≤ maxFile * bsize)
    (hop : s.ops ≠ []) (h : Spent t ip d k s₀ s) :
    Ends (writeiFrom sb t ip src n fuel tot off s) (fun _ s' => s'.ops ≠ [] ∧
      Spent t ip (d + blocksOf (n - tot)) (k + blocksOf (n - tot)) s₀ s') E := by
  induction fuel generalizing s tot off d k with
  | zero => exact ⟨hop, h.mono (Nat.le_add_right ..) (Nat.le_add_right ..)⟩
  | succ fuel ih =>
    rw [writeiFrom]
    by_cases hlt : tot < n
    · have hstep := blocksOf_step hlt
      have hbn : off / bsize < maxFile := by
        refine Nat.div_lt_of_lt_mul ?_
        rw [Nat.mul_comm]
        omega
      rw [if_pos hlt]
      refine (h.bmap hsize hop hbn).bind fun a s₁ hpost => ?_
      obtain ⟨hop₁, D, M, R, hfr, hD, hM, hR⟩ := hpost
      by_cases ha : a = 0
      · rw [if_pos ha]
        exact ⟨hop₁, a.toNat :: D, M, R, hfr, by rw [length_cons]; omega, by omega, hR⟩
      · rw [if_neg ha, bread_bind, hoff.resolve_right (by omega), Nat.sub_zero]
        cases src.fault tot (min (n - tot) bsize) with
        | some c =>
          refine (Spent.copy hfr hD hM hR hop₁ _).bind fun _ s₂ hpost => ?_
          obtain ⟨hop₂, h₂⟩ := hpost
          exact ⟨hop₂, h₂.mono (by omega) (by omega)⟩
        | none =>
          refine (Spent.copy hfr hD hM hR hop₁ _).bind fun _ s₂ hpost => ?_
          obtain ⟨hop₂, h₂⟩ := hpost
          -- either all is written, or the next turn starts with a block again
          have hnext : (off + min (n - tot) bsize) % bsize = 0 ∨
              n ≤ tot + min (n - tot) bsize := by
            have hmod : off % 1024 = 0 := hoff.resolve_right (by omega)
            show (off + min (n - tot) 1024) % 1024 = 0 ∨ n ≤ tot + min (n - tot) 1024
            omega
          refine (ih hnext (by omega) hop₂ h₂).imp fun _ s' hpost => ?_
          obtain ⟨hop', h'⟩ := hpost
          refine ⟨hop', ?_⟩
          exact h'.mono (by omega) (by omega)
    · rw [if_neg hlt]
      exact ⟨hop, h.mono (Nat.le_add_right ..) (Nat.le_add_right ..)⟩

/-- The loop of `writei` for one chunk: four data blocks and three bitmap blocks for them. -/
theorem writeiFrom_chunk (hsize : sb.size < 2 ^ 32) (src : Source) {n off : ℕ}
    (hmax : off + n ≤ maxFile * bsize) (hn : n ≤ filewriteMax) (hop : s.ops ≠ [])
    (hfirst : off % bsize ≠ 0 → blockAt s ip (off / bsize) ≠ 0) :
    Ends (writeiFrom sb t ip src n n 0 off s)
      (fun _ s' => s'.ops ≠ [] ∧ Spent t ip 4 3 s s') E := by
  have hn' : n ≤ 3072 := hn
  by_cases halign : off % bsize = 0
  · refine (writeiFrom_spent hsize src (.inl halign) (by omega) hop (.start t ip s)).imp
      fun _ s' hpost => ?_
    obtain ⟨hop', h'⟩ := hpost
    refine ⟨hop', h'.mono ?_ ?_⟩
    · show 0 + (n - 0 + 1023) / 1024 ≤ 4
      omega
    · show 0 + (n - 0 + 1023) / 1024 ≤ 3
      omega
  · -- the first block is there already
    cases n with
    | zero => exact ⟨hop, (Spent.start t ip s).mono (by decide) (by decide)⟩
    | succ n =>
      have hbn : off / bsize < maxFile := by
        refine Nat.div_lt_of_lt_mul ?_
        rw [Nat.mul_comm]
        omega
      have hfr : Frame t (· = ip) (· ∈ ([(blockAt s ip (off / bsize)).toNat] ++ [] ++ [] : List ℕ))
          s s := .refl ..
      have hrest : ∀ m, m = min (n + 1 - 0) (bsize - off % bsize) →
          blocksOf (n + 1 - (0 + m)) ≤ 3 ∧
            ((off + m) % bsize = 0 ∨ n + 1 ≤ 0 + m) ∧
            off + m + (n + 1 - (0 + m)) ≤ maxFile * bsize := by
        intro m hm
        have hm' : m = min (n + 1 - 0) (1024 - off % 1024) := hm
        refine ⟨?_, ?_, by omega⟩
        · show (n + 1 - (0 + m) + 1023) / 1024 ≤ 3
          omega
        · show (off + m) % 1024 = 0 ∨ n + 1 ≤ 0 + m
          omega
      obtain ⟨hthree, hnext, hmax'⟩ := hrest _ rfl
      rw [writeiFrom, if_pos (Nat.succ_pos n), bind_of_ok (bmap_of_blockAt hbn (hfirst halign)),
        if_neg (hfirst halign), bread_bind]
      have hcopy : ∀ x, Ends (logWrite t (blockAt s ip (off / bsize)).toNat x s)
          (fun _ s' => s'.ops ≠ [] ∧ Spent t ip (0 + 1) 0 s s') E := fun x =>
        Spent.copy hfr le_rfl le_rfl (.inl rfl) hop x
      cases src.fault 0 (min (n + 1 - 0) (bsize - off % bsize)) with
      | some c =>
        refine (hcopy _).bind fun _ s₂ hpost => ?_
        obtain ⟨hop₂, h₂⟩ := hpost
        exact ⟨hop₂, h₂.mono (by decide) (by decide)⟩
      | none =>
        refine (hcopy _).bind fun _ s₂ hpost => ?_
        obtain ⟨hop₂, h₂⟩ := hpost
        refine (writeiFrom_spent hsize src hnext hmax' hop₂ h₂).imp fun _ s' h' => ⟨h'.1, ?_⟩
        exact h'.2.mono (by omega) (by omega)

/-- The new size is not logged. -/
theorem growSize_frame {off : ℕ} :
    Ends (growSize ip off s) (fun _ s' => Frame t (· = ip) (fun _ => False) s s') E := by
  rw [growSize, inode_bind]
  split
  · exact .setDin (I := (· = ip)) rfl _
  · exact .refl ..

/-- **One chunk of `filewrite` fits the log**, for any geometry, any bitmap and any inode whose
blocks up to its size are there. -/
theorem chunk_fits_log (hsize : sb.size < 2 ^ 32) (hop : s.ops.lookup t = some [])
    (hhole : ∀ bn, bn * bsize < (s.itable ip).din.size.toNat → blockAt s ip bn ≠ 0)
    (src : Source) {off n : ℕ} (hoff : off ≤ (s.itable ip).din.size.toNat) (hn : n ≤ filewriteMax) :
    Ends (writei sb t ip src off n s)
      (fun _ s' => (s'.logged t).toFinset.card ≤ maxOpBlocks) fun _ => False := by
  have hnil : s.logged t = [] := by rw [State.logged, hop]; rfl
  have hne : s.ops ≠ [] := by
    rintro h
    rw [h] at hop
    cases hop
  -- it is enough to list the blocks
  have hcount : ∀ {s' : State τ} (L : List ℕ), L.length ≤ maxOpBlocks →
      (∀ b ∈ s'.logged t, b ∈ s.logged t ∨ b ∈ L) → (s'.logged t).toFinset.card ≤ maxOpBlocks := by
    intro s' L hL hsub
    have hsub' : (s'.logged t).toFinset ⊆ L.toFinset := fun b hb => by
      rcases hsub b (mem_toFinset.mp hb) with h | h
      · rw [hnil] at h
        cases h
      · exact mem_toFinset.mpr h
    exact (Finset.card_le_card hsub').trans ((toFinset_card_le L).trans hL)
  rw [writei, inode_bind]
  by_cases hout : (s.itable ip).din.size.toNat < off ∨ 2 ^ 32 ≤ off + n
  · rw [if_pos hout]
    exact hcount [] (Nat.zero_le _) fun b hb => .inl hb
  rw [if_neg hout]
  by_cases hmax : maxFile * bsize < off + n
  · rw [if_pos hmax]
    exact hcount [] (Nat.zero_le _) fun b hb => .inl hb
  rw [if_neg hmax]
  have hfirst : off % bsize ≠ 0 → blockAt s ip (off / bsize) ≠ 0 := fun hmod => by
    refine hhole _ (lt_of_lt_of_le ?_ hoff)
    have := Nat.div_add_mod off bsize
    rw [Nat.mul_comm] at this
    omega
  refine (writeiFrom_chunk hsize src (not_lt.mp hmax) hn hne hfirst).bind fun r s₁ hpost => ?_
  obtain ⟨hop₁, h₁⟩ := hpost
  obtain ⟨D, M, R, hfr₁, hD, hM, hR⟩ := h₁
  refine (growSize_frame (t := t)).bind fun _ s₂ hfr₂ => ?_
  have hop₂ := hfr₂.ops_ne_nil hop₁
  refine Ends.bind (Q := fun _ s₃ => Frame t (fun _ => False)
    (· = sb.iblock (s₂.itable ip).inum) s₂ s₃) ?_ fun _ s₃ hfr₃ => ?_
  · rw [iupdate, inode_bind, bread_bind]
    exact (logWrite_spec hop₂ _ _).imp fun _ _ h => h.2.2
  · refine hcount (sb.iblock (s₂.itable ip).inum :: (D ++ M ++ R)) ?_ fun b hb => ?_
    · have hR1 : R.length ≤ 1 := by
        rcases hR with rfl | ⟨rfl, -⟩
        · exact Nat.zero_le 1
        · exact le_rfl
      rw [length_cons, length_append, length_append]
      show D.length + M.length + R.length + 1 ≤ 10
      omega
    · rcases hfr₃.logged b hb with hb | rfl
      · rcases hfr₂.logged b hb with hb | hb
        · exact (hfr₁.logged b hb).imp id (.tail _)
        · exact hb.elim
      · exact .inr (.head _)

/-- The file of the small file system, in the middle of its only block. -/
theorem chunk_fits_log_small :
    Ends (writei Small.super () Small.slot (.kernel fun _ => 1) 3 3000 (Small.state ()))
      (fun _ s' => (s'.logged ()).toFinset.card ≤ maxOpBlocks) fun _ => False := by
  refine chunk_fits_log (by decide) rfl (fun bn hbn => ?_) _ ?_ (by decide)
  · rw [Small.itable_slot] at hbn
    have hbn' : bn * 1024 < 5 := hbn
    obtain rfl : bn = 0 := by omega
    decide
  · rw [Small.itable_slot]
    decide

end Fs

end TrinityXv6
