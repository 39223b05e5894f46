import TrinityXv6.Fs.BlockSpec

/-!
# What `readi` and `writei` do

A hole-free inode is an array of bytes. Reading it changes nothing at all, which is why reads may
run outside a transaction; writing it replaces bytes, extends the array, and keeps it hole-free
however early the write is cut short.
-/

namespace TrinityXv6

namespace Fs

open Threads Command
open State

variable {τ : Type} {sb : Superblock} {t : τ} {ip : Slot} {s s' : State τ} {E : Halt → Prop}

/-! ## Offsets -/

theorem div_mul_bsize_le (off : ℕ) : off / bsize * bsize ≤ off := Nat.div_mul_le_self ..

variable {fuel n off p tot : ℕ}

theorem add_div_bsize (h : off % bsize + p < bsize) : (off + p) / bsize = off / bsize := by
  have : off % 1024 + p < 1024 := h
  show (off + p) / 1024 = off / 1024
  omega

theorem add_mod_bsize (h : off % bsize + p < bsize) : (off + p) % bsize = off % bsize + p := by
  have : off % 1024 + p < 1024 := h
  show (off + p) % 1024 = off % 1024 + p
  omega

theorem maxFile_lt : maxFile * bsize < 2 ^ 32 := by
  show (12 + 256) * 1024 < 2 ^ 32
  omega

/-! ## Reading -/

/-- One block of a file, read from the byte at `off` on. -/
theorem Editable.byte_eq (he : Editable sb s ip) {a : UInt32}
    (ha : a.toNat = (s.eff sb ip).fileBlock (s.itable ip).inum (off / bsize)) (ha0 : a ≠ 0)
    (hp : off % bsize + p < bsize) : Bytes.byte (s.blocks a.toNat) (off % bsize + p) =
      (s.eff sb ip).content (s.itable ip).inum (off + p) := by
  have hne : (s.eff sb ip).fileBlock (s.itable ip).inum (off / bsize) ≠ 0 := by
    rw [← ha]
    exact fun h => ha0 (UInt32.toNat_inj.mp h)
  have hdata : sb.nmeta ≤ a.toNat := by
    rw [ha]
    exact (he.owned.range _ hne).1
  rw [Store.content_of_ne_zero (by rwa [add_div_bsize hp]), add_div_bsize hp, add_mod_bsize hp,
    eff_data, ← ha]
  exact congrArg (Bytes.byte · _) (Store.of_data hdata).symm

variable [DecidableEq τ]

section

variable (he : Editable sb s ip)
include he

/-- The loop of `readi` needs only the blocks it reads. -/
theorem readiFrom_mapped (dst : Dest)
    (hmap : ∀ bn, bn * bsize < off + n → (s.eff sb ip).fileBlock (s.itable ip).inum bn ≠ 0)
    (hfuel : n ≤ tot + fuel) (htot : tot ≤ n) (acc : List UInt8) :
    ∃ r, readiFrom sb t ip dst n fuel tot (off + tot) acc s = .ok (r, s) ∧
      ((∀ a m, dst a m = true) → r = ((n : ℤ), acc ++ (List.range (n - tot)).map fun p =>
        (s.eff sb ip).content (s.itable ip).inum (off + tot + p))) := by
  induction fuel generalizing tot acc with
  | zero =>
    obtain rfl : n = tot := by omega
    exact ⟨_, rfl, fun _ => by simp⟩
  | succ fuel ih =>
    rw [readiFrom]
    by_cases hlt : tot < n
    · have hpos : 0 < bsize := by decide
      have hmod : (off + tot) % bsize < bsize := Nat.mod_lt _ hpos
      have hmapped : (s.eff sb ip).fileBlock (s.itable ip).inum ((off + tot) / bsize) ≠ 0 := by
        refine hmap _ ?_
        have := div_mul_bsize_le (off + tot)
        omega
      obtain ⟨a, hbm, ha⟩ := bmap_of_mapped he hmapped
      have ha0 : a ≠ 0 := by
        rintro rfl
        exact hmapped ha.symm
      rw [if_pos hlt, bind_of_ok hbm, if_neg ha0, bread_bind]
      set m := min (n - tot) (bsize - (off + tot) % bsize) with hm
      by_cases hd : dst tot m = true
      · rw [if_pos hd]
        obtain ⟨r, hr, hbytes⟩ := ih (show n ≤ tot + m + fuel by omega) (by omega)
          (acc ++ (List.range m).map fun p =>
            Bytes.byte (s.blocks a.toNat) ((off + tot) % bsize + p))
        refine ⟨r, by rw [← hr, Nat.add_assoc], fun hall => ?_⟩
        rw [hbytes hall, List.append_assoc]
        congr 2
        have hsplit : n - tot = m + (n - (tot + m)) := by omega
        rw [hsplit, List.range_add, List.map_append, List.map_map]
        congr 1
        · refine List.map_congr_left fun p hp => ?_
          have := List.mem_range.mp hp
          exact he.byte_eq ha ha0 (by omega)
        · refine List.map_congr_left fun p _ => ?_
          simp only [Function.comp_apply]
          congr 1
          omega
      · rw [if_neg hd]
        exact ⟨_, rfl, fun hall => absurd (hall tot m) hd⟩
    · obtain rfl : n = tot := by omega
      rw [if_neg hlt]
      exact ⟨_, rfl, fun _ => by simp⟩

theorem readiFrom_spec (hf : (s.eff sb ip).HoleFreeAt (s.itable ip).inum)
    (dst : Dest) (hn : off + n ≤ (s.itable ip).din.size.toNat) (hfuel : n ≤ tot + fuel)
    (htot : tot ≤ n) (acc : List UInt8) :
    ∃ r, readiFrom sb t ip dst n fuel tot (off + tot) acc s = .ok (r, s) ∧
      ((∀ a m, dst a m = true) → r = ((n : ℤ), acc ++ (List.range (n - tot)).map fun p =>
        (s.eff sb ip).content (s.itable ip).inum (off + tot + p))) := by
  refine readiFrom_mapped he dst (fun bn hbn => hf.mapped bn ?_) hfuel htot acc
  rw [eff_din_self]
  omega

/-- **`readi`** of a hole-free inode leaves the state alone. -/
theorem readi_spec (hf : (s.eff sb ip).HoleFreeAt (s.itable ip).inum)
    (dst : Dest) (off n : ℕ) : ∃ r, readi sb t ip dst off n s = .ok (r, s) := by
  rw [readi, inode_bind]
  split
  · exact ⟨_, rfl⟩
  · rename_i hin
    obtain ⟨hle, -⟩ := not_or.mp hin
    set m := if (s.itable ip).din.size.toNat < off + n then (s.itable ip).din.size.toNat - off
      else n with hm
    have hle' : off + m ≤ (s.itable ip).din.size.toNat := by
      rw [hm]
      split <;> omega
    obtain ⟨r, hr, -⟩ := readiFrom_spec he hf dst hle' (Nat.le_add_left _ 0)
      (Nat.zero_le _) []
    exact ⟨r, hr⟩

/-- **`readi`** into the kernel's memory, of bytes whose blocks are there. -/
theorem readi_mapped
    (hmap : ∀ bn, bn * bsize < off + n → (s.eff sb ip).fileBlock (s.itable ip).inum bn ≠ 0)
    (hn : off + n ≤ (s.itable ip).din.size.toNat) :
    readi sb t ip (fun _ _ => true) off n s = .ok (((n : ℤ), (List.range n).map fun p =>
      (s.eff sb ip).content (s.itable ip).inum (off + p)), s) := by
  have hsize : (s.itable ip).din.size.toNat < 2 ^ 32 := (s.itable ip).din.size.toNat_lt
  rw [readi, inode_bind, if_neg (by omega)]
  obtain ⟨r, hr, hbytes⟩ := readiFrom_mapped he (fun _ _ => true) hmap
    (Nat.le_add_left _ 0) (Nat.zero_le _) []
  rw [hbytes fun _ _ => rfl] at hr
  simp only [if_neg (not_lt.mpr hn)]
  simpa using hr

/-- **`readi`** into the kernel's memory, of bytes that are all there. -/
theorem readi_kernel (hf : (s.eff sb ip).HoleFreeAt (s.itable ip).inum)
    (hn : off + n ≤ (s.itable ip).din.size.toNat) :
    readi sb t ip (fun _ _ => true) off n s = .ok (((n : ℤ), (List.range n).map fun p =>
      (s.eff sb ip).content (s.itable ip).inum (off + p)), s) := by
  refine readi_mapped he (fun bn hbn => hf.mapped bn ?_) hn
  rw [eff_din_self]
  omega

end

/-! ## Writing -/

/-- The blocks a write of `n` bytes at `off` may log. -/
def WriteLog (sb : Superblock) (S : Store) (i off n b : ℕ) : Prop :=
  sb.IsBitmap b ∨ b ≠ 0 ∧ (b = S.addr (i, ndirect) ∨
    ∃ bn, off / bsize ≤ bn ∧ bn * bsize < off + n ∧ b = S.fileBlock i bn)

/-- What a write of `n` bytes at `off` has done when it has copied `tot` of them. A copy that
faulted may have copied `lost` more, which the write does not count. -/
structure Written (sb : Superblock) (t : τ) (ip : Slot) (src : Source) (off n tot lost : ℕ)
    (s s' : State τ) : Prop where
  frame : Frame t (· = ip) (WriteLog sb (s'.eff sb ip) (s.itable ip).inum off n) s s'
  grows : Store.Grows sb (s.itable ip).inum (s.eff sb ip) (s'.eff sb ip)
  size : (s'.itable ip).din.size = (s.itable ip).din.size
  inside : ∀ p < tot + lost, (s'.eff sb ip).content (s.itable ip).inum (off + p) = src.data p
  outside : ∀ p, p < off ∨ off + tot + lost ≤ p →
    (s'.eff sb ip).content (s.itable ip).inum p = (s.eff sb ip).content (s.itable ip).inum p
  mapped : ∀ bn, bn * bsize < off + tot →
    (s'.eff sb ip).fileBlock (s.itable ip).inum bn ≠ 0

namespace Written

variable {src : Source} {off n tot lost : ℕ} {s'' : State τ}

theorem editable (h : Written sb t ip src off n tot lost s s') (he : Editable sb s ip) :
    Editable sb s' ip where
  inum_lt := by
    rw [h.frame.inum]
    exact he.inum_lt
  type_ne := by
    have := h.grows.type_eq
    rw [← h.frame.inum ip, eff_din_self, h.frame.inum ip, eff_din_self] at this
    rw [this]
    exact he.type_ne
  owned := h.grows.owned

/-- What a later state of the inode has logged, seen from there. -/
theorem log_mono {S S' : Store} {i b : ℕ} (hG : Store.Grows sb i S S')
    (h : WriteLog sb S i off n b) : WriteLog sb S' i off n b := by
  rcases h with h | ⟨hb, rfl | ⟨bn, hlo, hhi, rfl⟩⟩
  · exact .inl h
  · exact .inr ⟨hb, .inl (hG.kept _ hb).symm⟩
  · exact .inr ⟨hb, .inr ⟨bn, hlo, hhi, (hG.kept _ hb).symm⟩⟩

/-- A block was taken. -/
theorem takes (h : Written sb t ip src off n tot lost s s') {bn : ℕ}
    (hlo : off / bsize ≤ bn) (hhi : bn * bsize < off + n)
    (hT : Takes sb t ip (BmapLog sb (s''.eff sb ip) (s.itable ip).inum (Store.fileSlot bn))
      s' s'') : Written sb t ip src off n tot lost s s'' := by
  have hA := hT.allocs
  rw [h.frame.inum] at hA
  refine ⟨(h.frame.mono (fun _ => id) fun b hb => log_mono hA.toGrows hb).trans
    (hT.frame.mono (fun _ => id) ?_), h.grows.trans hA.toGrows, ?_, fun p hp => ?_, fun p hp => ?_,
    fun bn hbn => ?_⟩
  · rintro b (hb | ⟨hb, hb' | hb'⟩)
    · exact .inl hb
    · exact .inr ⟨hb, .inl hb'⟩
    · exact .inr ⟨hb, .inr ⟨bn, hlo, hhi, hb'⟩⟩
  · have := hA.size
    rw [← h.frame.inum ip, eff_din_self, ← hT.frame.inum ip, eff_din_self] at this
    rw [this, h.size]
  · rw [hA.content, h.inside p hp]
  · rw [hA.content, h.outside p hp]
  · exact hA.ne_zero (h.mapped bn hbn)

/-- Bytes were copied into the block that holds the next offset: `m` of them to stay, or `k` before
a fault. -/
theorem write (h : Written sb t ip src off n tot 0 s s') {a : UInt32} {m k : ℕ} (hsb : sb.Sane)
    (ha : (s'.eff sb ip).fileBlock (s.itable ip).inum ((off + tot) / bsize) = a.toNat)
    (ha0 : a ≠ 0) (hm : (off + tot) % bsize + m + k ≤ bsize) (hpos : tot < n)
    (hblk : s''.blocks = Function.update s'.blocks a.toNat (Bytes.splice (s'.blocks a.toNat)
      ((off + tot) % bsize) (m + k) fun p => src.data (tot + p)))
    (hit : s''.itable = s'.itable) (hfr : Frame t (fun _ => False) (· = a.toNat) s' s'') :
    Written sb t ip src off n (tot + m) k s s'' := by
  set i := (s.itable ip).inum with hi
  set bn := (off + tot) / bsize with hbn
  have hane : (s'.eff sb ip).fileBlock i bn ≠ 0 := by
    rw [ha]
    exact fun h => ha0 (UInt32.toNat_inj.mp h)
  have hdata : sb.nmeta ≤ a.toNat := by
    rw [← ha]
    exact (h.grows.owned.range _ hane).1
  have heff : s''.eff sb ip = (s'.eff sb ip).write ((s'.eff sb ip).fileBlock i bn)
      (Bytes.splice (s'.blocks a.toNat) ((off + tot) % bsize) (m + k)
        fun p => src.data (tot + p)) := by
    rw [State.eff, State.store, hblk, Store.of_update hsb hdata, hit, ha]
    rfl
  have hG : Store.Grows sb i (s'.eff sb ip) (s''.eff sb ip) := by
    rw [heff]
    exact .write h.grows.owned i bn _
  have hsame : ∀ bn', (s''.eff sb ip).fileBlock i bn' = (s'.eff sb ip).fileBlock i bn' := by
    intro bn'
    rw [heff]
    exact congrFun (h.grows.owned.fileBlock_write i bn _) _
  -- every byte of the file after the copy
  have hbyte : ∀ p, (s''.eff sb ip).content i p =
      if off + tot ≤ p ∧ p < off + tot + m + k then src.data (p - off)
      else (s'.eff sb ip).content i p := by
    intro p
    rw [heff, Store.content_write h.grows.owned hane]
    have hmod := Nat.div_add_mod p bsize
    have hmod' := Nat.div_add_mod (off + tot) bsize
    by_cases hp : p / bsize = bn
    · have hold : Bytes.byte (s'.blocks a.toNat) (p % bsize) = (s'.eff sb ip).content i p := by
        rw [Store.content_of_ne_zero (by rwa [hp]), hp, ha, eff_data]
        exact congrArg (Bytes.byte · _) (Store.of_data hdata).symm
      have hlt : p % bsize < bsize := Nat.mod_lt _ (by decide)
      rw [if_pos hp, Bytes.byte_splice, hold]
      rw [hp, hbn] at hmod
      by_cases hin : off + tot ≤ p ∧ p < off + tot + m + k
      · rw [if_pos hin, if_pos (by omega)]
        congr 1
        omega
      · rw [if_neg hin, if_neg (by omega)]
    · rw [if_neg hp, if_neg]
      rintro ⟨hlo, hhi⟩
      apply hp
      have : p = off + tot + (p - (off + tot)) := by omega
      rw [this, hbn]
      exact add_div_bsize (by omega)
  refine ⟨(h.frame.mono (fun _ => id) fun b hb => log_mono hG hb).trans
    (hfr.mono (fun _ hf => hf.elim) ?_), h.grows.trans hG, by rw [hit, h.size], fun p hp => ?_,
    fun p hp => ?_, fun bn' hbn' => ?_⟩
  · rintro b rfl
    refine .inr ⟨fun h => ha0 (UInt32.toNat_inj.mp h), .inr ⟨bn, ?_, ?_, ?_⟩⟩
    · exact Nat.div_le_div_right (by omega)
    · have := div_mul_bsize_le (off + tot)
      rw [← hbn] at this
      omega
    · rw [hsame, ha]
  · rw [hbyte]
    by_cases hp' : p < tot
    · rw [if_neg (by omega), h.inside p hp']
    · rw [if_pos (by omega)]
      congr 1
      omega
  · rw [hbyte, if_neg (by omega), h.outside p (by omega)]
  · rw [hsame]
    by_cases hold : bn' * bsize < off + tot
    · exact h.mapped bn' hold
    · -- a new block starts at the offset of the copy
      have hmod' := Nat.div_add_mod (off + tot) bsize
      have hle : off + tot ≤ bn' * bsize := by omega
      have heq : bn' = bn := by
        have h₁ : bn ≤ bn' := by
          rw [hbn]
          exact Nat.div_le_of_le_mul (by rw [Nat.mul_comm]; exact hle)
        have h₂ : bn' < bn + 1 := by
          refine Nat.lt_of_mul_lt_mul_right (a := bsize) ?_
          rw [Nat.add_mul, Nat.mul_comm bn, hbn]
          omega
        omega
      rwa [heq]

end Written

/-- Where a write without faults can stop: before its first byte, at its end, or at the end of a
block. -/
def EndsAt (off n tot : ℕ) : Prop := tot = 0 ∨ tot = n ∨ (off + tot) % bsize = 0

theorem endsAt_next (h : tot ≤ n) :
    EndsAt off n (tot + min (n - tot) (bsize - (off + tot) % bsize)) := by
  refine .inr ?_
  show tot + min (n - tot) (1024 - (off + tot) % 1024) = n ∨
    (off + (tot + min (n - tot) (1024 - (off + tot) % 1024))) % 1024 = 0
  omega

/-- Why a write of `n` bytes stops after `tot` of them: it is complete, the source faults, or no
block is free. -/
def Stops (sb : Superblock) (src : Source) (n tot : ℕ) (S : Store) : Prop :=
  tot = n ∨ (∃ m k, src.fault tot m = some k) ∨ Full sb S

theorem writeiFrom_spec (hsb : sb.Sane) (hop : s.ops ≠ []) (he : Editable sb s ip) (src : Source)
    (hmax : off + n ≤ maxFile * bsize) (hfuel : n ≤ tot + fuel) (htot : tot ≤ n)
    (hend : EndsAt off n tot) (h : Written sb t ip src off n tot 0 s s') :
    Ends (writeiFrom sb t ip src n fuel tot (off + tot) s') (fun r s'' => ∃ lost,
      r.1 + lost ≤ n ∧ r.2 = off + r.1 ∧ EndsAt off n r.1 ∧
      Stops sb src n r.1 (s''.store sb) ∧ Written sb t ip src off n r.1 lost s s'' ∧
      ((∀ a m, src.fault a m = none) → lost = 0)) E := by
  induction fuel generalizing tot s' with
  | zero => exact ⟨0, htot, rfl, hend, .inl (by omega), h, fun _ => rfl⟩
  | succ fuel ih =>
    rw [writeiFrom]
    by_cases hlt : tot < n
    · have hpos : (off + tot) % bsize < bsize := Nat.mod_lt _ (by decide)
      have hdm := div_mul_bsize_le (off + tot)
      have hmaxbn : (off + tot) / bsize < maxFile := by
        refine Nat.div_lt_of_lt_mul ?_
        rw [Nat.mul_comm]
        omega
      rw [if_pos hlt]
      refine (bmap_spec hsb (h.frame.ops_ne_nil hop) (h.editable he) hmaxbn).bind
        fun a s₁ ⟨hT, hfull, ha⟩ => ?_
      rw [h.frame.inum] at hT ha
      have h₁ : Written sb t ip src off n tot 0 s s₁ :=
        h.takes (Nat.div_le_div_right (by omega)) (by omega) hT
      by_cases ha0 : a = 0
      · rw [if_pos ha0]
        exact ⟨0, htot, rfl, hend, .inr (.inr (hfull ha0)), h₁, fun _ => rfl⟩
      · rw [if_neg ha0, bread_bind]
        set m := min (n - tot) (bsize - (off + tot) % bsize) with hm
        cases hfault : src.fault tot m with
        | some k =>
          refine (logWrite_spec (h₁.frame.ops_ne_nil hop) _ _).bind fun _ s₂ ⟨hb, hit, hfr⟩ => ?_
          have h₂ : Written sb t ip src off n (tot + 0) (min k m) s s₂ :=
            h₁.write hsb (ha ha0) ha0 (by omega) hlt
              (by rw [hb, Nat.zero_add]) hit hfr
          exact ⟨min k m, by show tot + min k m ≤ n; omega, rfl, hend, .inr (.inl ⟨m, k, hfault⟩),
            h₂,
            fun hno => by rw [hno] at hfault; cases hfault⟩
        | none =>
          refine (logWrite_spec (h₁.frame.ops_ne_nil hop) _ _).bind fun _ s₂ ⟨hb, hit, hfr⟩ => ?_
          have h₂ : Written sb t ip src off n (tot + m) 0 s s₂ :=
            h₁.write hsb (ha ha0) ha0 (by omega) hlt hb hit hfr
          have := ih (show n ≤ tot + m + fuel by omega) (by omega) (endsAt_next htot) h₂
          rwa [← Nat.add_assoc] at this
    · rw [if_neg hlt]
      exact ⟨0, htot, rfl, hend, .inl (by omega), h, fun _ => rfl⟩

/-- The new size, in memory. -/
theorem growSize_spec (hoff : off < 2 ^ 32) :
    Ends (growSize ip off s) (fun _ s' => s'.blocks = s.blocks ∧ s'.ops = s.ops ∧
      Frame t (· = ip) (fun _ => False) s s' ∧
      (s'.itable ip).din = { (s.itable ip).din with size := (s'.itable ip).din.size } ∧
      (s'.itable ip).din.size.toNat = max (s.itable ip).din.size.toNat off) E := by
  rw [growSize, inode_bind]
  by_cases hgrow : (s.itable ip).din.size.toNat < off
  · have hval : (UInt32.ofNat off).toNat = off := by
      rw [UInt32.toNat_ofNat']
      exact Nat.mod_eq_of_lt hoff
    rw [if_pos hgrow]
    refine ⟨rfl, rfl, ⟨fun i => ?_, fun i hi => ?_, rfl, rfl, rfl, fun _ _ => rfl,
      fun b hb => .inl hb⟩, ?_, ?_⟩
    · by_cases hi : i = ip
      · subst hi
        rw [setDin_itable_self]
      · rw [setDin_itable_of_ne _ _ hi]
    · rw [setDin_itable_of_ne _ _ hi]
    · rw [setDin_itable_self]
    · rw [setDin_itable_self]
      rw [hval]
      omega
  · rw [if_neg hgrow]
    exact ⟨rfl, rfl, .refl .., rfl, by omega⟩

/-- What `writei` has done when it returns: the disk holds the inode as it is in memory. -/
structure Wrote (sb : Superblock) (t : τ) (ip : Slot) (src : Source) (off n tot lost : ℕ)
    (s s' : State τ) : Prop where
  frame : Frame t (· = ip) (fun b => b = sb.iblock (s.itable ip).inum ∨
    WriteLog sb (s'.store sb) (s.itable ip).inum off n b) s s'
  grows : Store.Grows sb (s.itable ip).inum (s.eff sb ip) (s'.store sb)
  din : (s'.itable ip).din = (s'.store sb).din (s.itable ip).inum
  size : (s'.itable ip).din.size.toNat = max (s.itable ip).din.size.toNat (off + tot)
  inside : ∀ p < tot + lost, (s'.store sb).content (s.itable ip).inum (off + p) = src.data p
  outside : ∀ p, p < off ∨ off + tot + lost ≤ p →
    (s'.store sb).content (s.itable ip).inum p = (s.eff sb ip).content (s.itable ip).inum p
  holeFree : (s'.store sb).HoleFreeAt (s.itable ip).inum
  stops : Stops sb src n tot (s'.store sb)

/-- **`writei`** fails without an effect, or writes a part of what it was given. -/
theorem writei_spec (hsb : sb.Sane) (hop : s.ops ≠ []) (he : Editable sb s ip)
    (hf : (s.eff sb ip).HoleFreeAt (s.itable ip).inum) (src : Source) (off n : ℕ) :
    Ends (writei sb t ip src off n s) (fun r s' =>
      (r = -1 ∧ s' = s ∧ ((s.itable ip).din.size.toNat < off ∨ maxFile * bsize < off + n)) ∨
      ∃ tot lost : ℕ, r = tot ∧ tot + lost ≤ n ∧ EndsAt off n tot ∧
        ((∀ a m, src.fault a m = none) → lost = 0) ∧ off + n ≤ maxFile * bsize ∧
        Wrote sb t ip src off n tot lost s s') E := by
  have hbig : maxFile * bsize < 2 ^ 32 := maxFile_lt
  rw [writei, inode_bind]
  by_cases hout : (s.itable ip).din.size.toNat < off ∨ 2 ^ 32 ≤ off + n
  · rw [if_pos hout]
    exact .inl ⟨rfl, rfl, hout.imp id fun h => by omega⟩
  rw [if_neg hout]
  by_cases hmax : maxFile * bsize < off + n
  · rw [if_pos hmax]
    exact .inl ⟨rfl, rfl, .inr hmax⟩
  rw [if_neg hmax]
  obtain ⟨hoff, -⟩ := not_or.mp hout
  have hstart : Written sb t ip src off n 0 0 s s :=
    ⟨.refl .., .refl he.owned _, rfl, fun p hp => absurd hp (Nat.not_lt_zero p), fun _ _ => rfl,
      fun bn hbn => hf.mapped bn (by rw [eff_din_self]; exact hbn.trans_le (not_lt.mp hoff))⟩
  refine (writeiFrom_spec hsb hop he src (not_lt.mp hmax) (Nat.le_add_left _ 0)
    (Nat.zero_le _) (.inl rfl) hstart).bind fun r s₁ hs₁ => ?_
  obtain ⟨lost, hle, hr, hend, hstops, h₁, hlost⟩ := hs₁
  refine (growSize_spec (t := t) (by omega)).bind fun _ s₂ hs₂ => ?_
  obtain ⟨hb₂, hops₂, hfr₂, hdin₂, hsize₂⟩ := hs₂
  rw [h₁.size, hr] at hsize₂
  set i := (s.itable ip).inum with hi
  have hinum₁ : (s₁.itable ip).inum = i := h₁.frame.inum ip
  have hinum₂ : (s₂.itable ip).inum = i := by rw [hfr₂.inum, hinum₁]
  have heff₂ : s₂.eff sb ip = (s₁.eff sb ip).edit i
      { (s₁.eff sb ip).din i with size := (s₂.itable ip).din.size } := by
    have hself : (s₁.eff sb ip).din i = (s₁.itable ip).din := by
      rw [← hinum₁, eff_din_self]
    rw [hself, ← hdin₂, State.eff, State.eff, hinum₂, hinum₁, Store.edit_edit]
    simp only [State.store, hb₂]
  have hG₂ : Store.Grows sb i (s₁.eff sb ip) (s₂.eff sb ip) := by
    rw [heff₂]
    exact .setSize h₁.grows.owned i _
  have hop₂ : s₂.ops ≠ [] := by
    rw [hops₂]
    exact h₁.frame.ops_ne_nil hop
  refine (iupdate_spec hsb hop₂ (by rw [hinum₂]; exact he.inum_lt)).bind fun _ s₃ hs₃ => ?_
  obtain ⟨hst, hit, hfr⟩ := hs₃
  rw [hinum₂] at hfr
  have haddr : (s₃.store sb).addr = (s₁.eff sb ip).addr := by
    rw [hst, heff₂]
    exact Store.addr_edit rfl rfl
  have hcontent : ∀ p, (s₃.store sb).content i p = (s₁.eff sb ip).content i p := fun p => by
    refine Store.content_congr (fun k => by rw [haddr]) (fun k _ => ?_) p
    rw [hst, heff₂, Store.edit_data]
  have hG₃ : Store.Grows sb i (s.eff sb ip) (s₃.store sb) := by
    rw [hst]
    exact h₁.grows.trans hG₂
  have hdin₃ : (s₃.itable ip).din = (s₃.store sb).din i := by
    rw [hit, hst, ← hinum₂, eff_din_self]
  refine .inr ⟨r.1, lost, rfl, hle, hend, hlost, not_lt.mp hmax, ?_, hG₃, hdin₃,
    by rw [hit, hsize₂],
    fun p hp => by rw [hcontent, h₁.inside p hp], fun p hp => by rw [hcontent, h₁.outside p hp],
    ⟨?_, fun bn hbn => ?_⟩, hstops.imp id (.imp id fun hfull => ?_)⟩
  · refine ((h₁.frame.mono (fun _ => id) fun b hb => .inr ?_).trans
      (hfr₂.mono (fun _ => id) fun _ h => h.elim)).trans
      (hfr.mono (fun _ h => h.elim) fun _ h => .inl h)
    rw [hst]
    exact Written.log_mono hG₂ hb
  · rw [← hdin₃, hit, hsize₂]
    have := hf.size_le
    rw [eff_din_self] at this
    omega
  · rw [← hdin₃, hit, hsize₂] at hbn
    show (s₃.store sb).addr _ ≠ 0
    rw [haddr]
    by_cases hold : bn * bsize < off + r.1
    · exact h₁.mapped bn hold
    · refine h₁.grows.ne_zero (hf.mapped bn ?_)
      rw [eff_din_self]
      exact (lt_max_iff.mp hbn).resolve_right hold
  · rw [hst]
    show Full sb (s₂.store sb)
    rwa [State.store, hb₂]

end Fs

end TrinityXv6
