import TrinityXv6.Fs.Store

/-!
# What the block and inode code does

One specification per function of `TrinityXv6.Fs.Inode` that runs under the lock of an inode. They
are about the inode as it is in memory: `State.eff` is the disk with that inode in place of the one
on the disk, which `iupdate` makes true. `Frame` says which inodes in memory and which blocks a
function may have touched.
-/

namespace TrinityXv6

namespace Fs

open Threads Command
open State
open Store
open List

variable {τ : Type}

/-- The disk. -/
def State.store (sb : Superblock) (s : State τ) : Store := .of sb s.blocks

/-- The disk with the inode of a table entry as it is in memory. -/
def State.eff (sb : Superblock) (s : State τ) (ip : Slot) : Store :=
  (s.store sb).edit (s.itable ip).inum (s.itable ip).din

/-- A block of the bitmap. -/
def Superblock.IsBitmap (sb : Superblock) (b : ℕ) : Prop := ∃ c < sb.size, b = sb.bblock c

/-! ## The parts of a function -/

section Simp

variable {α : Type}

@[simp] theorem bread_bind (b : ℕ) (f : Blk → F τ α) (s : State τ) :
    (bread b >>= f) s = f (s.blocks b) s := rfl

@[simp] theorem inode_bind (ip : Slot) (f : Inode τ → F τ α) (s : State τ) :
    (inode ip >>= f) s = f (s.itable ip) s := rfl

@[simp] theorem setAddr_bind (ip : Slot) (k : Fin (ndirect + 1)) (a : UInt32) (f : Unit → F τ α)
    (s : State τ) : (setAddr ip k a >>= f) s = f () (s.setDin ip
      { (s.itable ip).din with addrs := Function.update (s.itable ip).din.addrs k a }) := rfl

end Simp

namespace State

variable {sb : Superblock}

section

variable (s : State τ)
include s

@[simp] theorem setDin_store (ip : Slot) (d : Dinode) : (s.setDin ip d).store sb = s.store sb := rfl

@[simp] theorem setDin_itable_self (ip : Slot) (d : Dinode) :
    (s.setDin ip d).itable ip = { s.itable ip with din := d } := Function.update_self ..

theorem setDin_itable_of_ne {ip i : Slot} (d : Dinode) (h : i ≠ ip) :
    (s.setDin ip d).itable i = s.itable i := Function.update_of_ne h ..

@[simp] theorem setDin_eff (ip : Slot) (d : Dinode) :
    (s.setDin ip d).eff sb ip = (s.eff sb ip).edit (s.itable ip).inum d := by
  simp [eff]

@[simp] theorem eff_data (ip : Slot) : (s.eff sb ip).data = (s.store sb).data := rfl

@[simp] theorem eff_din_self (ip : Slot) :
    (s.eff sb ip).din (s.itable ip).inum = (s.itable ip).din := Function.update_self ..

end

end State

/-! ## What the holder of an inode relies on -/

section Editable

variable {sb : Superblock} {ip : Slot} {s : State τ}

/-- Metadata is marked as used. -/
def MetaUsed (sb : Superblock) (S : Store) : Prop := ∀ b < sb.nmeta, S.bit b = true

/-- No block is free. -/
def Full (sb : Superblock) (S : Store) : Prop := ∀ b < sb.size, S.bit b = true

theorem Store.Owned.metaUsed {S : Store} (h : S.Owned sb) : MetaUsed sb S := by
  intro b hb
  have hlt : b < sb.size := by
    have : sb.nmeta ≤ sb.size := Nat.sub_le _ _
    omega
  exact (h.used_iff b hlt).mpr (.inl hb)

/-- The holder of `ip` may rely on this: the inode is allocated, its number is in range, and block
ownership holds with the inode as it is in memory. -/
structure Editable (sb : Superblock) (s : State τ) (ip : Slot) : Prop where
  inum_lt : (s.itable ip).inum < sb.ninodes
  type_ne : (s.itable ip).din.type ≠ 0
  owned : (s.eff sb ip).Owned sb

theorem Editable.type_ne' (h : Editable sb s ip) :
    ((s.eff sb ip).din (s.itable ip).inum).type ≠ 0 := by
  rw [eff_din_self]
  exact h.type_ne

theorem Editable.metaUsed (h : Editable sb s ip) : MetaUsed sb (s.store sb) :=
  h.owned.metaUsed

end Editable

variable [DecidableEq τ]

/-! ## Frames -/

/-- Apart from blocks, only the disk's fields of the inodes in `I` may have changed, and process
`t` may have logged blocks in `B`. -/
structure Frame (t : τ) (I : Slot → Prop) (B : ℕ → Prop) (s s' : State τ) : Prop where
  inode : ∀ i, s'.itable i = { s.itable i with din := (s'.itable i).din }
  din : ∀ i, ¬ I i → (s'.itable i).din = (s.itable i).din
  ftable : s'.ftable = s.ftable
  proc : s'.proc = s.proc
  keys : s'.ops.map Prod.fst = s.ops.map Prod.fst
  logged_of_ne : ∀ u, u ≠ t → s'.logged u = s.logged u
  logged : ∀ b ∈ s'.logged t, b ∈ s.logged t ∨ B b

namespace Frame

variable {t : τ} {I J : Slot → Prop} {A B : ℕ → Prop} {s s' s'' : State τ}

theorem refl (t : τ) (I : Slot → Prop) (B : ℕ → Prop) (s : State τ) : Frame t I B s s where
  inode _ := rfl
  din _ _ := rfl
  ftable := rfl
  proc := rfl
  keys := rfl
  logged_of_ne _ _ := rfl
  logged _ hb := .inl hb

section

variable (h : Frame t I B s s')
include h

theorem trans (h' : Frame t I B s' s'') : Frame t I B s s'' where
  inode i := by rw [h'.inode, h.inode]
  din i hi := (h'.din i hi).trans (h.din i hi)
  ftable := h'.ftable.trans h.ftable
  proc := h'.proc.trans h.proc
  keys := h'.keys.trans h.keys
  logged_of_ne u hu := (h'.logged_of_ne u hu).trans (h.logged_of_ne u hu)
  logged b hb := (h'.logged b hb).elim (fun hb => h.logged b hb) .inr

theorem mono (hI : ∀ i, I i → J i) (hB : ∀ b, B b → A b) : Frame t J A s s' :=
  { h with
    din := fun i hi => h.din i fun hIi => hi (hI i hIi)
    logged := fun b hb => (h.logged b hb).imp id (hB b) }

theorem inum (i : Slot) : (s'.itable i).inum = (s.itable i).inum := by
  rw [h.inode]

theorem ops_ne_nil (hop : s.ops ≠ []) : s'.ops ≠ [] := by
  intro h0
  have := h.keys
  rw [h0, map_nil, eq_comm, map_eq_nil_iff] at this
  exact hop this

/-- An inode none of whose fields changed. -/
theorem itable_eq {i : Slot} (hi : ¬ I i) : s'.itable i = s.itable i := by
  rw [h.inode, h.din i hi]

end

/-- The in-memory copy of an inode changes, and nothing else. -/
theorem setDin {ip : Slot} (hip : I ip) (d : Dinode) : Frame t I B s (s.setDin ip d) := by
  refine ⟨fun i => ?_, fun i hi => ?_, rfl, rfl, rfl, fun _ _ => rfl, fun _ hb => .inl hb⟩
  · by_cases hi : i = ip
    · subst hi
      rw [setDin_itable_self]
    · rw [setDin_itable_of_ne _ _ hi]
  · have hne : i ≠ ip := by
      rintro rfl
      exact hi hip
    rw [setDin_itable_of_ne _ _ hne]

end Frame

variable {sb : Superblock} {t : τ} {ip : Slot} {s s' : State τ} {E : Halt → Prop} {B : ℕ → Prop}

namespace State

theorem logOp_cons (t v : τ) (b : ℕ) (l : List ℕ) (ops : List (τ × List ℕ)) :
    Log.logOp t b ((v, l) :: ops) =
      (v, if v = t ∧ b ∉ l then b :: l else l) :: Log.logOp t b ops := by
  simp only [Log.logOp, map_cons]
  split <;> rfl

theorem logged_logOp_of_ne {t u : τ} {b : ℕ} (h : u ≠ t) (s : State τ) :
    ((Log.logOp t b s.ops).lookup u).getD [] = s.logged u := by
  rw [logged]
  induction s.ops with
  | nil => rfl
  | cons o ops ih =>
    obtain ⟨v, l⟩ := o
    rw [logOp_cons]
    by_cases hv : u = v
    · subst hv
      simp [h]
    · rw [lookup_cons, lookup_cons]
      have : (u == v) = false := by simpa using hv
      rw [this]
      exact ih

theorem mem_logged_logOp {b c : ℕ}
    (h : c ∈ ((Log.logOp t b s.ops).lookup t).getD []) : c ∈ s.logged t ∨ c = b := by
  rw [logged]
  revert h
  induction s.ops with
  | nil => exact .inl
  | cons o ops ih =>
    obtain ⟨v, l⟩ := o
    rw [logOp_cons]
    by_cases hv : t = v
    · subst hv
      intro h
      simp only [lookup_cons_self, Option.getD_some, true_and] at h ⊢
      split at h
      · exact (mem_cons.mp h).symm
      · exact .inl h
    · have hf : (t == v) = false := by simpa using hv
      rw [lookup_cons, lookup_cons, hf]
      exact ih

end State

/-- **`log_write`.** -/
theorem logWrite_spec (hop : s.ops ≠ []) (b : ℕ) (d : Blk) :
    Ends (logWrite t b d s) (fun _ s' => s'.blocks = Function.update s.blocks b d ∧
      s'.itable = s.itable ∧ Frame t (fun _ => False) (· = b) s s') E := by
  have hlen : ¬ s.ops.length < 1 := by
    have := length_pos_iff.mpr hop
    omega
  rw [logWrite, if_neg hlen]
  refine ⟨rfl, rfl, fun _ => rfl, fun _ _ => rfl, rfl, rfl, ?_, ?_, ?_⟩
  · simp only [Log.logOp, map_map]
    refine map_congr_left fun o _ => ?_
    simp only [Function.comp_apply]
    split <;> rfl
  · exact fun u hu => logged_logOp_of_ne hu s
  · exact fun c hc => mem_logged_logOp hc

/-! ## The bitmap -/

/-- What `balloc` does when it finds block `a`. -/
structure Balloc (sb : Superblock) (t : τ) (a : ℕ) (s s' : State τ) : Prop where
  lt : a < sb.size
  ne_zero : a ≠ 0
  free : (s.store sb).bit a = false
  store : s'.store sb = (s.store sb).take a
  itable : s'.itable = s.itable
  frame : Frame t (fun _ => False) (fun b => sb.IsBitmap b ∨ b = a) s s'

section

variable (hsb : sb.Sane) (hop : s.ops ≠ [])
include hsb hop

theorem ballocIn_spec (hm : MetaUsed sb (s.store sb)) {q : ℕ} (hq : bpb * q < sb.size) :
    Ends (ballocIn sb t (bpb * q) s) (fun r s' =>
      (r = none ∧ s' = s ∧ ∀ b < sb.size, b / bpb = q → (s.store sb).bit b = true) ∨
      ∃ a, r = some a ∧ Balloc sb t a s s') E := by
  have hbpb : 0 < bpb := by decide
  rw [ballocIn, bread_bind]
  cases hf : (List.range (min bpb (sb.size - bpb * q))).find? fun bi =>
      !Bytes.bit (s.blocks (sb.bblock (bpb * q))) bi with
  | none =>
    refine .inl ⟨rfl, rfl, fun b hb hbq => ?_⟩
    have hdm : bpb * q + b % bpb = b := by rw [← hbq, Nat.div_add_mod]
    have hmod : b % bpb < bpb := Nat.mod_lt _ hbpb
    have hused := find?_eq_none.mp hf (b % bpb) (mem_range.mpr (by omega))
    have hblk : sb.bblock b = sb.bblock (bpb * q) := by
      rw [Superblock.bblock, Superblock.bblock, hbq, Nat.mul_div_cancel_left _ hbpb]
    rw [State.store, of_bit hb, hblk]
    simpa using hused
  | some bi =>
    have hmem := mem_range.mp (mem_of_find?_eq_some hf)
    have hbit : Bytes.bit (s.blocks (sb.bblock (bpb * q))) bi = false := by
      simpa using List.find?_some hf
    have hlt : bpb * q + bi < sb.size := by omega
    have hmod : (bpb * q + bi) % bpb = bi := by
      rw [Nat.mul_add_mod, Nat.mod_eq_of_lt (by omega)]
    have hblk : sb.bblock (bpb * q + bi) = sb.bblock (bpb * q) := by
      rw [Superblock.bblock, Superblock.bblock, Nat.mul_add_div hbpb,
        Nat.div_eq_of_lt (by omega), Nat.mul_div_cancel_left _ hbpb, Nat.add_zero]
    have hfree : (s.store sb).bit (bpb * q + bi) = false := by
      rw [State.store, of_bit hlt, hblk, hmod, hbit]
    have hdata : sb.nmeta ≤ bpb * q + bi := by
      by_contra hlow
      rw [hm _ (by omega)] at hfree
      cases hfree
    have hpos := hsb.bitmap 0 hsb.size_pos
    refine (logWrite_spec hop _ _).bind fun _ s₁ hs₁ => ?_
    obtain ⟨hb₁, hi₁, hf₁⟩ := hs₁
    refine (logWrite_spec (hf₁.ops_ne_nil hop) _ _).bind fun _ s₂ hs₂ => ?_
    obtain ⟨hb₂, hi₂, hf₂⟩ := hs₂
    refine .inr ⟨_, rfl, hlt, by omega, hfree, ?_, hi₂.trans hi₁, ?_⟩
    · have h₁ : s₁.store sb = { s.store sb with
          bit := Function.update (s.store sb).bit (bpb * q + bi) true } := by
        rw [State.store, State.store, hb₁, ← of_putBit hsb hlt, hblk, hmod]
      rw [State.store, hb₂, of_update hsb hdata]
      rw [State.store] at h₁
      rw [h₁]
      rfl
    · refine (hf₁.mono (fun _ => id) ?_).trans (hf₂.mono (fun _ => id) fun _ => .inr)
      rintro b rfl
      exact .inl ⟨_, hq, rfl⟩

theorem ballocFrom_spec (hm : MetaUsed sb (s.store sb))
    {n q : ℕ} (hn : bpb * (q + n) < sb.size + bpb) (hall : sb.size ≤ bpb * (q + n))
    (hlow : ∀ b < sb.size, b / bpb < q → (s.store sb).bit b = true) :
    Ends (ballocFrom sb t n (bpb * q) s) (fun a s' =>
      (a = 0 ∧ s' = s ∧ Full sb (s.store sb)) ∨ Balloc sb t a.toNat s s') E := by
  induction n generalizing q with
  | zero => exact .inl ⟨rfl, rfl, fun b hb => hlow b hb (Nat.div_lt_of_lt_mul (hb.trans_le hall))⟩
  | succ n ih =>
    have hn' : 8192 * (q + (n + 1)) < sb.size + 8192 := hn
    have hq : bpb * q < sb.size := by
      show 8192 * q < sb.size
      omega
    refine (ballocIn_spec hsb hop hm hq).bind fun r s' hr => ?_
    obtain ⟨rfl, rfl, hnone⟩ | ⟨a, rfl, ha⟩ := hr
    · have hnext : q + 1 + n = q + (n + 1) := by omega
      refine ih (by rwa [hnext]) (by rwa [hnext]) fun b hb hbq => ?_
      rcases Nat.lt_succ_iff_lt_or_eq.mp hbq with hbq | hbq
      · exact hlow b hb hbq
      · exact hnone b hb hbq
    · have hle := hsb.size_le
      have hlt := ha.lt
      have : (UInt32.ofNat a).toNat = a := by
        rw [UInt32.toNat_ofNat']
        exact Nat.mod_eq_of_lt (by omega)
      exact .inr (by rwa [this])

/-- **`balloc`** returns `0` and does nothing if no block is free, or else a block that was. -/
theorem balloc_spec (hm : MetaUsed sb (s.store sb)) : Ends (balloc sb t s) (fun a s' =>
      (a = 0 ∧ s' = s ∧ Full sb (s.store sb)) ∨ Balloc sb t a.toNat s s') E := by
  refine ballocFrom_spec hsb hop hm ?_ ?_ fun b _ hb => absurd hb (Nat.not_lt_zero _)
  · show 8192 * (0 + (sb.size + 8192 - 1) / 8192) < sb.size + 8192
    omega
  · show sb.size ≤ 8192 * (0 + (sb.size + 8192 - 1) / 8192)
    omega

/-! ## Inodes on the disk -/

/-- A write to the dinode of an inode. -/
theorem iupdate_spec (hi : (s.itable ip).inum < sb.ninodes) :
    Ends (iupdate sb t ip s) (fun _ s' => s'.store sb = s.eff sb ip ∧ s'.itable = s.itable ∧
      Frame t (fun _ => False) (· = sb.iblock (s.itable ip).inum) s s') E := by
  rw [iupdate, inode_bind, bread_bind]
  refine (logWrite_spec hop _ _).imp fun _ s' ⟨hb', hi', hf'⟩ => ⟨?_, hi', hf'⟩
  rw [State.store, hb', of_putDinode hsb hi]
  rfl

end

/-! ## The blocks of an inode -/

/-- What a function that takes blocks for inode `ip` does. -/
structure Takes (sb : Superblock) (t : τ) (ip : Slot) (B : ℕ → Prop) (s s' : State τ) :
    Prop where
  frame : Frame t (· = ip) B s s'
  allocs : Store.Allocs sb (s.itable ip).inum (s.eff sb ip) (s'.eff sb ip)

theorem Takes.refl (h : Editable sb s ip) (t : τ) (B : ℕ → Prop) : Takes sb t ip B s s :=
  ⟨.refl .., .refl h.owned _⟩

theorem Takes.trans {s'' : State τ} (h : Takes sb t ip B s s')
    (h' : Takes sb t ip B s' s'') : Takes sb t ip B s s'' := by
  have := h'.allocs
  rw [h.frame.inum] at this
  exact ⟨h.frame.trans h'.frame, h.allocs.trans this⟩

theorem Takes.mono {A B : ℕ → Prop} (h : Takes sb t ip B s s') (hB : ∀ b, B b → A b) :
    Takes sb t ip A s s' :=
  ⟨h.frame.mono (fun _ => id) hB, h.allocs⟩

theorem Takes.editable (h : Takes sb t ip B s s') (he : Editable sb s ip) : Editable sb s' ip where
  inum_lt := by
    rw [h.frame.inum]
    exact he.inum_lt
  type_ne := by
    have := h.allocs.type_eq
    rw [← h.frame.inum ip, eff_din_self, h.frame.inum ip, eff_din_self] at this
    rw [this]
    exact he.type_ne
  owned := h.allocs.owned

/-- The blocks a call of `bmap` may log. -/
def BmapLog (sb : Superblock) (S : Store) (i k b : ℕ) : Prop :=
  sb.IsBitmap b ∨ b ≠ 0 ∧ (b = S.addr (i, ndirect) ∨ b = S.addr (i, k))

section

variable (hsb : sb.Sane) (hop : s.ops ≠ [])
include hsb hop

theorem bmapAddr_spec (he : Editable sb s ip) (k : Fin (ndirect + 1)) :
    Ends (bmapAddr sb t ip k s) (fun a s' =>
      Takes sb t ip (fun b => sb.IsBitmap b ∨ b = a.toNat) s s' ∧
      (a = 0 → s' = s ∧ Full sb (s.store sb)) ∧
      (a ≠ 0 → (s'.eff sb ip).addr ((s.itable ip).inum, k) = a.toNat)) E := by
  have hk : (s.eff sb ip).addr ((s.itable ip).inum, k) = ((s.itable ip).din.addrs k).toNat := by
    rw [addr_of_lt he.type_ne', eff_din_self]
  rw [bmapAddr, inode_bind]
  by_cases h0 : (s.itable ip).din.addrs k = 0
  · rw [if_pos h0]
    refine (balloc_spec hsb hop he.metaUsed).bind fun a s₁ h₁ => ?_
    obtain ⟨rfl, rfl, hfull⟩ | ha := h₁
    · exact ⟨.refl he .., fun _ => ⟨rfl, hfull⟩, fun h => absurd rfl h⟩
    · have hane : a ≠ 0 := fun h => ha.ne_zero (by rw [h]; rfl)
      rw [if_neg hane, setAddr_bind]
      have heff : (s₁.setDin ip { (s₁.itable ip).din with
          addrs := Function.update (s₁.itable ip).din.addrs k a }).eff sb ip =
          ((s.eff sb ip).take a.toNat).putAddr (s.itable ip).inum k a := by
        have h₁ : s₁.eff sb ip = (s.eff sb ip).take a.toNat := by
          rw [State.eff, State.eff, ha.store, ha.itable, take_edit]
        rw [setDin_eff, h₁, ha.itable, Store.putAddr, take_din, eff_din_self]
      obtain ⟨hal, hnew⟩ := Store.Allocs.takeAddr he.owned he.type_ne'
        (by rw [hk, h0]; rfl) ha.lt ha.ne_zero ha.free
      rw [← heff] at hal hnew
      refine ⟨⟨⟨fun i => ?_, fun i hi => ?_, ha.frame.ftable, ha.frame.proc, ha.frame.keys,
        ha.frame.logged_of_ne, ha.frame.logged⟩, hal⟩, fun h => absurd h hane, fun _ => hnew⟩
      · by_cases hi : i = ip
        · subst hi
          rw [setDin_itable_self, ha.itable]
        · rw [setDin_itable_of_ne _ _ hi, ha.itable]
      · rw [setDin_itable_of_ne _ _ hi, ha.itable]
  · rw [if_neg h0]
    exact ⟨.refl he .., fun h => absurd h h0, fun _ => hk⟩

theorem bmapEntry_spec (he : Editable sb s ip) {j : ℕ}
    (hj : j < nindirect) (hr : (s.eff sb ip).addr ((s.itable ip).inum, ndirect) ≠ 0) :
    Ends (bmapEntry sb t ((s.eff sb ip).addr ((s.itable ip).inum, ndirect)) j s) (fun a s' =>
      Takes sb t ip (fun b => sb.IsBitmap b ∨ b = a.toNat ∨
        b = (s.eff sb ip).addr ((s.itable ip).inum, ndirect)) s s' ∧
      (a = 0 → s' = s ∧ Full sb (s.store sb)) ∧
      (a ≠ 0 → (s'.eff sb ip).addr ((s.itable ip).inum, ndirect + 1 + j) = a.toNat)) E := by
  set r := (s.eff sb ip).addr ((s.itable ip).inum, ndirect) with hrdef
  have hdata : sb.nmeta ≤ r := (he.owned.range _ hr).1
  have hblk : (s.store sb).data r = s.blocks r := of_data hdata
  have hent : (s.eff sb ip).addr ((s.itable ip).inum, ndirect + 1 + j) =
      (Bytes.getU32 (s.blocks r) (4 * j)).toNat := by
    rw [addr_entry he.type_ne' hj, if_neg hr, ← hrdef, Store.entry, eff_data, hblk]
  rw [bmapEntry, bread_bind]
  by_cases h0 : Bytes.getU32 (s.blocks r) (4 * j) = 0
  · rw [if_pos h0]
    refine (balloc_spec hsb hop he.metaUsed).bind fun a s₁ h₁ => ?_
    obtain ⟨rfl, rfl, hfull⟩ | ha := h₁
    · exact ⟨.refl he .., fun _ => ⟨rfl, hfull⟩, fun h => absurd rfl h⟩
    · have hane : a ≠ 0 := fun h => ha.ne_zero (by rw [h]; rfl)
      rw [if_neg hane]
      refine (logWrite_spec (ha.frame.ops_ne_nil hop) _ _).bind fun _ s₂ hs₂ => ?_
      obtain ⟨hb₂, hi₂, hf₂⟩ := hs₂
      -- the indirect block is not the block that was taken
      have hra : r ≠ a.toNat := he.owned.addr_ne ha.free ha.ne_zero _
      have heff : s₂.eff sb ip = ((s.eff sb ip).take a.toNat).putEntry r j a := by
        have hs₂ : s₂.store sb =
            ((s.store sb).take a.toNat).write r (Bytes.putU32 (s.blocks r) (4 * j) a) := by
          rw [State.store, hb₂, of_update hsb hdata, ← ha.store]
          rfl
        rw [State.eff, hs₂, hi₂, ha.itable, putEntry, take_data_of_ne hra, eff_data, hblk]
        rfl
      obtain ⟨hal, hnew⟩ := Store.Allocs.takeEntry he.owned he.type_ne' hj hr
        (by rw [hent, h0]; rfl) ha.lt ha.ne_zero ha.free
      rw [← hrdef, ← heff] at hal hnew
      refine ⟨⟨?_, hal⟩, fun h => absurd h hane, fun _ => hnew⟩
      refine (ha.frame.mono (fun _ h => h.elim) ?_).trans (hf₂.mono (fun _ h => h.elim) ?_)
      · rintro b (hb | rfl)
        · exact .inl hb
        · exact .inr (.inl rfl)
      · rintro b rfl
        exact .inr (.inr rfl)
  · rw [if_neg h0]
    exact ⟨.refl he .., fun h => absurd h h0, fun _ => hent⟩

/-- **`bmap`** of a block the file can have: `0` if there is no free block, or the block. -/
theorem bmap_spec (he : Editable sb s ip) {bn : ℕ} (hbn : bn < maxFile) :
    Ends (bmap sb t ip bn s) (fun a s' =>
      Takes sb t ip (BmapLog sb (s'.eff sb ip) (s.itable ip).inum (Store.fileSlot bn)) s s' ∧
      (a = 0 → Full sb (s'.store sb)) ∧
      (a ≠ 0 → (s'.eff sb ip).fileBlock (s.itable ip).inum bn = a.toNat)) E := by
  rw [bmap]
  by_cases hd : bn < ndirect
  · rw [dif_pos hd]
    have hslot : Store.fileSlot bn = bn := if_pos hd
    refine (bmapAddr_spec hsb hop he _).imp fun a s' hs' => ?_
    obtain ⟨hT, h0, ha⟩ := hs'
    refine ⟨?_, fun ha0 => ?_, fun hane => by rw [Store.fileBlock, hslot]; exact ha hane⟩
    swap
    · obtain ⟨rfl, hfull⟩ := h0 ha0
      exact hfull
    by_cases hane : a = 0
    · rw [(h0 hane).1]
      exact .refl he ..
    · refine hT.mono ?_
      rintro b (hb | rfl)
      · exact .inl hb
      · refine .inr ⟨fun h => hane (UInt32.toNat_inj.mp h), .inr ?_⟩
        rw [hslot]
        exact (ha hane).symm
  · have hslot : Store.fileSlot bn = ndirect + 1 + (bn - ndirect) := by
      rw [Store.fileSlot, if_neg hd]
      omega
    have hind : bn - ndirect < nindirect := by
      have : bn < 12 + 256 := hbn
      have := ndirect_eq
      have := nindirect_eq
      omega
    rw [dif_neg hd, if_pos hind]
    refine (bmapAddr_spec hsb hop he rootSlot).bind fun root s₁ hs₁ => ?_
    obtain ⟨hT, h0, ha⟩ := hs₁
    by_cases hroot : root = 0
    · obtain ⟨rfl, hfull⟩ := h0 hroot
      rw [if_pos hroot]
      exact ⟨.refl he .., fun _ => hfull, fun h => absurd rfl h⟩
    · rw [if_neg hroot]
      have hr : (s₁.eff sb ip).addr ((s₁.itable ip).inum, ndirect) = root.toNat := by
        rw [hT.frame.inum]
        exact ha hroot
      have hrne : (s₁.eff sb ip).addr ((s₁.itable ip).inum, ndirect) ≠ 0 := by
        rw [hr]
        exact fun h => hroot (UInt32.toNat_inj.mp h)
      rw [← hr]
      refine (bmapEntry_spec hsb (hT.frame.ops_ne_nil hop) (hT.editable he) hind
        hrne).imp fun a s₂ hs₂ => ?_
      obtain ⟨hT₂, h0₂, ha₂⟩ := hs₂
      have hkept : (s₂.eff sb ip).addr ((s.itable ip).inum, ndirect) = root.toNat := by
        rw [← hT.frame.inum ip, hT₂.allocs.kept _ hrne, hr]
      rw [hT.frame.inum] at ha₂
      refine ⟨?_, fun ha0 => ?_, fun hane => by rw [Store.fileBlock, hslot]; exact ha₂ hane⟩
      swap
      · obtain ⟨rfl, hfull⟩ := h0₂ ha0
        exact hfull
      have hT' : Takes sb t ip (BmapLog sb (s₂.eff sb ip) (s.itable ip).inum
          (Store.fileSlot bn)) s s₁ := hT.mono fun b hb => hb.elim .inl fun hb =>
        .inr ⟨fun h => hrne (by rw [hr, ← hb, h]), .inl (by rw [hkept, hb])⟩
      refine hT'.trans ?_
      by_cases hane : a = 0
      · rw [(h0₂ hane).1]
        exact .refl (hT.editable he) ..
      · refine hT₂.mono ?_
        rintro b (hb | rfl | rfl)
        · exact .inl hb
        · refine .inr ⟨fun h => hane (UInt32.toNat_inj.mp h), .inr ?_⟩
          rw [hslot]
          exact (ha₂ hane).symm
        · exact .inr ⟨hrne, .inl (by rw [hkept, hr])⟩

end

/-- **`bmap`** of a block the file has changes nothing. -/
theorem bmap_of_mapped (he : Editable sb s ip) {bn : ℕ}
    (hbn : (s.eff sb ip).fileBlock (s.itable ip).inum bn ≠ 0) :
    ∃ a : UInt32, bmap sb t ip bn s = .ok (a, s) ∧
      a.toNat = (s.eff sb ip).fileBlock (s.itable ip).inum bn := by
  have hlow : ∀ k : Fin (ndirect + 1),
      (s.eff sb ip).addr ((s.itable ip).inum, k) = ((s.itable ip).din.addrs k).toNat := fun k => by
    rw [addr_of_lt he.type_ne', eff_din_self]
  have haddr : ∀ k : Fin (ndirect + 1), (s.eff sb ip).addr ((s.itable ip).inum, k) ≠ 0 →
      bmapAddr sb t ip k s = .ok ((s.itable ip).din.addrs k, s) := fun k hk => by
    rw [bmapAddr, inode_bind, if_neg]
    · rfl
    · intro h0
      rw [hlow, h0] at hk
      exact hk rfl
  rw [Store.fileBlock] at hbn ⊢
  rw [bmap]
  by_cases hd : bn < ndirect
  · have hslot : Store.fileSlot bn = bn := if_pos hd
    rw [hslot] at hbn ⊢
    rw [dif_pos hd]
    exact ⟨_, haddr ⟨bn, Nat.lt_succ_of_lt hd⟩ hbn, (hlow ⟨bn, Nat.lt_succ_of_lt hd⟩).symm⟩
  · have hslot : Store.fileSlot bn = ndirect + 1 + (bn - ndirect) := by
      rw [Store.fileSlot, if_neg hd]
      omega
    rw [hslot] at hbn ⊢
    have hind : bn - ndirect < nindirect := by
      by_contra hge
      exact hbn (addr_of_ge (by omega))
    have hr : (s.eff sb ip).addr ((s.itable ip).inum, ndirect) ≠ 0 := by
      intro h0
      rw [addr_entry he.type_ne' hind, if_pos h0] at hbn
      exact hbn rfl
    have hroot : (s.eff sb ip).addr ((s.itable ip).inum, ndirect) =
        ((s.itable ip).din.addrs rootSlot).toNat := hlow rootSlot
    have hrne : (s.itable ip).din.addrs rootSlot ≠ 0 := by
      intro h0
      rw [hroot, h0] at hr
      exact hr rfl
    have hdata : (s.store sb).data ((s.itable ip).din.addrs rootSlot).toNat =
        s.blocks ((s.itable ip).din.addrs rootSlot).toNat :=
      of_data (hroot ▸ (he.owned.range _ hr).1)
    have hent : (s.eff sb ip).addr ((s.itable ip).inum, ndirect + 1 + (bn - ndirect)) =
        (Bytes.getU32 (s.blocks ((s.itable ip).din.addrs rootSlot).toNat)
          (4 * (bn - ndirect))).toNat := by
      rw [addr_entry he.type_ne' hind, if_neg hr, Store.entry, eff_data, hroot, hdata]
    rw [dif_neg hd, if_pos hind, bind_of_ok (haddr rootSlot hr), if_neg hrne, bmapEntry, bread_bind,
      if_neg]
    · exact ⟨_, rfl, hent.symm⟩
    · intro h0
      rw [hent, h0] at hbn
      exact hbn rfl

end Fs

end TrinityXv6
