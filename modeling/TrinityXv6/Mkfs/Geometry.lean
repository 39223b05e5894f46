import TrinityXv6.Fs.Lookup
import TrinityXv6.Mkfs.Build

/-!
# The geometry of the image, and its holes

Two properties of the images that `mkfs` builds hold for most numbers of arguments and fail for
the others.

The counter `freeinode` is not compared with `NINODES`. With 199 files the last inode has the
number 200, which the superblock says does not exist; the image respects its geometry for up to 198
files, and for no more.

The size of the root directory is rounded up to a multiple of `BSIZE` above it. If the entries fill
their blocks, which is so for 62 files, the last block of the directory is missing, and the kernel
panics when it reads there outside a transaction. As long as the inodes stay inside the inode
blocks, nothing else makes a hole.

## Main results

* `mkfs_geometry`, `mkfs_geometry_inodes` — the first property, and where it fails
* `mkfs_hole_free`, `mkfs_hole_free_root` — the second one
-/

namespace TrinityXv6

namespace Mkfs

open Command Fs
open List

variable {s : State} {n i : ℕ} {args : List Arg}

/-! ## Empty files -/

/-- The name of an empty file: two letters. -/
def letters (k : ℕ) : List UInt8 := [UInt8.ofNat (97 + k / 16 % 16), UInt8.ofNat (97 + k % 16)]

theorem mem_letters {k : ℕ} {c : UInt8} (h : c ∈ letters k) : c ≠ 0 ∧ c ≠ slash ∧ c ≠ 95 := by
  have hall : ∀ j < 16, UInt8.ofNat (97 + j) ≠ 0 ∧ UInt8.ofNat (97 + j) ≠ slash ∧
      UInt8.ofNat (97 + j) ≠ 95 := by decide
  rcases mem_cons.mp h with rfl | h
  · exact hall _ (Nat.mod_lt _ (by decide))
  · rcases mem_singleton.mp h with rfl
    exact hall _ (Nat.mod_lt _ (by decide))

/-- An empty file. -/
def emptyFile (k : ℕ) : Arg where
  path := letters k
  file := some []
  nonzero h := (mem_letters h).1 rfl
  chunk cs hcs c hc := by
    obtain rfl := Option.some.inj hcs
    cases hc

/-- The first `m` of them. -/
def emptyFiles (m : ℕ) : List Arg := (List.range m).map emptyFile

theorem length_emptyFiles (m : ℕ) : (emptyFiles m).length = m := by
  rw [emptyFiles, length_map, length_range]

theorem base_emptyFile (k : ℕ) : (emptyFile k).base = letters k := by
  rw [Arg.base, if_neg]
  · rfl
  · intro h
    exact absurd (congrArg List.length h) (by simp [emptyFile, letters, Arg.user])

theorem shortname_emptyFile (k : ℕ) : (emptyFile k).shortname = letters k := by
  have hhead : (emptyFile k).base.head? ≠ some 95 := by
    rw [base_emptyFile]
    intro h
    exact (mem_letters (mem_of_mem_head? h)).2.2 rfl
  rw [Arg.shortname, if_neg hhead, base_emptyFile]

theorem good_emptyFile (k : ℕ) : (emptyFile k).Good := by
  refine ⟨fun h => ?_, Option.some_ne_none _, ?_, Nat.zero_le _⟩
  · rw [base_emptyFile] at h
    exact (mem_letters h).2.1 rfl
  · rw [shortname_emptyFile]
    show 2 ≤ 14
    decide

theorem need_emptyFiles (m : ℕ) : need (emptyFiles m) = blocksOf (16 * (m + 2)) := by
  have hzero : (fun a : Arg => blocksOf a.bytes.length) ∘ emptyFile = fun _ => 0 :=
    funext fun _ => blocksOf_zero
  rw [need, length_emptyFiles, emptyFiles, map_map, hzero, map_const',
    sum_replicate_nat, Nat.mul_zero, Nat.add_zero]

theorem fits_emptyFiles {m : ℕ} (h : m ≤ 206) : Fits (emptyFiles m) := by
  refine ⟨fun a ha => ?_, ?_⟩
  · obtain ⟨k, -, rfl⟩ := mem_map.mp ha
    exact good_emptyFile k
  · have hmono := blocksOf_mono (show 16 * (m + 2) ≤ 16 * 208 by omega)
    have h208 : blocksOf (16 * 208) = 4 := by decide
    have := nmeta_eq
    have := fssize_eq
    rw [need_emptyFiles]
    omega

/-! ## Files with contents -/

/-- A file of three bytes, which `read` returns in two chunks. -/
def threeBytes : Arg where
  path := [97]
  file := some [[1, 2], [3]]
  nonzero := by decide
  chunk cs hcs := by
    obtain rfl := Option.some.inj hcs
    decide

/-- A file of 13 blocks, so that it has an indirect block. -/
def thirteenBlocks : Arg where
  path := [98]
  file := some (replicate 13 (replicate 1024 7))
  nonzero := by decide
  chunk cs hcs c hc := by
    obtain rfl := Option.some.inj hcs
    obtain rfl := eq_of_mem_replicate hc
    have hlen : (replicate 1024 (7 : UInt8)).length = 1024 := length_replicate ..
    refine ⟨fun h => ?_, hlen.le⟩
    rw [h] at hlen
    cases hlen

theorem length_thirteenBlocks : thirteenBlocks.bytes.length = 13 * 1024 := by
  show (replicate 13 (replicate 1024 (7 : UInt8))).flatten.length = _
  rw [length_flatten, map_replicate, sum_replicate_nat, length_replicate]

/-- The two of them and an empty file. -/
def threeFiles : List Arg := [threeBytes, thirteenBlocks, emptyFile 0]

theorem fits_threeFiles : Fits threeFiles := by
  refine ⟨?_, ?_⟩
  · rintro a (⟨⟩ | ⟨_, ⟨⟩ | ⟨_, ⟨⟩ | ⟨_, ⟨⟩⟩⟩⟩)
    · exact ⟨by decide, by decide, by decide, by decide⟩
    · refine ⟨by decide, Option.some_ne_none _, by decide, ?_⟩
      rw [length_thirteenBlocks]
      decide
    · exact good_emptyFile 0
  · simp only [need, threeFiles, map_cons, map_nil, sum_cons, length_thirteenBlocks]
    decide

/-! ## The counter of inodes -/

theorem rsect_leaves (a : ℕ) : Leaves State.freeinode (rsect a) := by
  intro s
  rw [rsect]
  split
  · rfl
  · trivial

theorem wsect_leaves (a : ℕ) (d : Blk) : Leaves State.freeinode (wsect a d) := fun _ => rfl

theorem rinode_leaves (i : ℕ) : Leaves State.freeinode (rinode i) :=
  (rsect_leaves _).bind fun _ => leaves_pure _ _

theorem winode_leaves (i : ℕ) (x : Dinode) : Leaves State.freeinode (winode i x) :=
  (rsect_leaves _).bind fun _ => .bind (fun _ => rfl) fun _ => wsect_leaves _ _

theorem nextBlock_leaves : Leaves State.freeinode nextBlock := fun _ => rfl

theorem addrFor_leaves (din : Dinode) (k : Fin (ndirect + 1)) :
    Leaves State.freeinode (addrFor din k) := by
  rw [addrFor]
  split
  · exact nextBlock_leaves.bind fun _ => leaves_pure _ _
  · exact leaves_pure _ _

theorem entryFor_leaves (root j : ℕ) : Leaves State.freeinode (entryFor root j) := by
  refine (rsect_leaves root).bind fun d => ?_
  split
  · exact nextBlock_leaves.bind fun _ => (wsect_leaves _ _).bind fun _ => leaves_pure _ _
  · exact leaves_pure _ _

theorem blockFor_leaves (din : Dinode) (fbn : ℕ) : Leaves State.freeinode (blockFor din fbn) := by
  rw [blockFor]
  split
  · exact (addrFor_leaves _ _).bind fun _ => leaves_pure _ _
  · exact (addrFor_leaves _ _).bind fun _ => (entryFor_leaves _ _).bind fun _ => leaves_pure _ _

theorem iappendFrom_leaves (fuel : ℕ) (din : Dinode) (off : ℕ) (p : List UInt8) :
    Leaves State.freeinode (iappendFrom fuel din off p) := by
  induction fuel generalizing din off p with
  | zero => exact leaves_pure _ _
  | succ fuel ih =>
    rw [iappendFrom]
    split
    · exact leaves_pure _ _
    · split
      · exact (blockFor_leaves _ _).bind fun _ => (rsect_leaves _).bind fun _ =>
          (wsect_leaves _ _).bind fun _ => ih _ _ _
      · exact fun _ => trivial

theorem iappend_leaves (i : ℕ) (p : List UInt8) : Leaves State.freeinode (iappend i p) :=
  (rinode_leaves i).bind fun _ => (iappendFrom_leaves _ _ _ _).bind fun _ => winode_leaves _ _

theorem appendAll_leaves (i : ℕ) (cs : List (List UInt8)) :
    Leaves State.freeinode (appendAll i cs) := by
  induction cs with
  | nil => exact leaves_pure _ _
  | cons c cs ih => exact (iappend_leaves i c).bind fun _ => ih

theorem finish_leaves (root : ℕ) : Leaves State.freeinode (finish root) := by
  refine (rinode_leaves root).bind fun _ => (winode_leaves _ _).bind fun _ =>
    .bind (fun _ => rfl) fun s => ?_
  rw [balloc]
  split
  · exact wsect_leaves _ _
  · exact fun _ => trivial

theorem ialloc_freeinode (ty : Int16) (s : State) :
    Ends (ialloc ty s) (fun _ s' => s'.freeinode = s.freeinode + 1) fun _ => True := by
  have hrest := (winode_leaves s.freeinode { Dinode.zero with type := ty, nlink := 1 }).bind
    fun _ => leaves_pure State.freeinode s.freeinode
  exact hrest { s with freeinode := s.freeinode + 1 }

/-- Each file takes one inode. -/
theorem addFile_freeinode (root : ℕ) (a : Arg) (s : State) :
    Ends (addFile root a s) (fun _ s' => s'.freeinode = s.freeinode + 1) fun _ => True := by
  rw [addFile]
  by_cases hs : slash ∈ a.base
  · rw [if_pos hs]
    trivial
  rw [if_neg hs]
  cases a.file with
  | none => trivial
  | some cs =>
    by_cases hl : dirSiz < a.shortname.length
    · simp only [if_pos hl]
      trivial
    · simp only [if_neg hl]
      refine (ialloc_freeinode tFile s).bind fun i s₁ h₁ => ?_
      have hrest := (iappend_leaves root (dirent i a.shortname)).bind fun _ => appendAll_leaves i cs
      exact (hrest s₁).imp fun _ s₂ h₂ => h₂.trans h₁

theorem addFiles_freeinode (root : ℕ) (args : List Arg) (s : State) :
    Ends (addFiles root args s) (fun _ s' => s'.freeinode = s.freeinode + args.length)
      fun _ => True := by
  induction args generalizing s with
  | nil => rfl
  | cons a args ih =>
    refine (addFile_freeinode root a s).bind fun _ s₁ h₁ => (ih s₁).imp fun _ s₂ h₂ => ?_
    rw [h₂, h₁, length_cons]
    omega

/-- The counter in the end, also if there are more files than inodes. -/
theorem main_freeinode (hrun : main args State.start = .ok ((), s)) :
    s.freeinode = args.length + 2 := by
  obtain ⟨s₀, h₀, hmain⟩ := main_root (n := ninodes) (by decide) (by decide)
  rw [hmain args] at hrun
  have hend := (addFiles_freeinode rootIno args s₀).bind fun _ s₁ h₁ =>
    (finish_leaves rootIno s₁).imp fun _ s₂ h₂ => h₂.trans h₁
  rw [hend.ok hrun, h₀.freeinode, length_nil]
  omega

/-! ## Geometry -/

theorem slotOf_zero (S : Store) (k : ℕ) : S.slotOf .zero k = 0 := by
  rw [Store.slotOf]
  split
  · rfl
  · exact if_pos (.inl rfl)

/-- An inode without a type is an inode of zeros. -/
theorem Image.din_eq_zero (h : Image n args s)
    (ht : ((Store.of (geometry n) s.sect).din i).type = 0) :
    (Store.of (geometry n) s.sect).din i = .zero := by
  cases hi : nodes args i with
  | none => exact h.free i hi
  | some x =>
    refine absurd ht ?_
    match i, hi with
    | 1, _ =>
      rw [h.root.type_eq]
      decide
    | k + 2, hi =>
      obtain ⟨a, ha, -⟩ := Option.map_eq_some_iff.mp hi
      exact (h.file k a ha).type_ne'

/-- The addresses in the inodes and the indirect blocks of the image. -/
theorem Image.slotOf_range (h : Image n args s) {k : ℕ}
    (hk : (Store.of (geometry n) s.sect).slotOf ((Store.of (geometry n) s.sect).din i) k ≠ 0) :
    nmeta ≤ (Store.of (geometry n) s.sect).slotOf ((Store.of (geometry n) s.sect).din i) k ∧
      (Store.of (geometry n) s.sect).slotOf ((Store.of (geometry n) s.sect).din i) k < fssize := by
  by_cases ht : ((Store.of (geometry n) s.sect).din i).type = 0
  · rw [h.din_eq_zero ht, slotOf_zero] at hk
    exact absurd rfl hk
  · have haddr : (Store.of (geometry n) s.sect).addr (i, k) =
        (Store.of (geometry n) s.sect).slotOf ((Store.of (geometry n) s.sect).din i) k := if_neg ht
    rw [← haddr] at hk ⊢
    obtain ⟨hlo, hhi⟩ := h.owned.range _ hk
    exact ⟨(geometry_nmeta n).ge.trans hlo, hhi⟩

/-- The blocks the bitmap marks. -/
theorem Image.bit_iff (h : Image n args s) (b : ℕ) : Bytes.bit (s.sect sb.bmapstart) b = true ↔
      b < nmeta ∨ b ≠ 0 ∧ ∃ x, (Store.of (geometry n) s.sect).addr x = b := by
  have hroom := h.room
  rw [h.bits, decide_eq_true_iff]
  by_cases hb : b < fssize
  · have hused := h.owned.used_iff b hb
    rw [geometry_nmeta] at hused
    rw [← hused, of_bit_geometry hb, h.bits, decide_eq_true_iff]
  · refine iff_of_false (by omega) ?_
    rintro (hlt | ⟨hb0, x, rfl⟩)
    · have := nmeta_eq
      have := fssize_eq
      omega
    · exact hb (h.owned.range x hb0).2

/-- The image respects its geometry: it has its inodes below `sb.ninodes`, its blocks between the
metadata and `sb.size`, inodes in the inode blocks only, and a bitmap of the metadata and the blocks
in use. -/
structure Respects (s : State) : Prop where
  inodes : ∀ i, 0 < i → i < s.freeinode → i < sb.ninodes
  blocks : ∀ i k, (Store.of sb s.sect).slotOf ((Store.of sb s.sect).din i) k ≠ 0 →
    sb.nmeta ≤ (Store.of sb s.sect).slotOf ((Store.of sb s.sect).din i) k ∧
    (Store.of sb s.sect).slotOf ((Store.of sb s.sect).din i) k < sb.size
  writes : ∀ b ∈ s.inodeWrites, sb.inodestart ≤ b ∧ b < sb.bmapstart
  bitmap : ∀ b < bpb, Bytes.bit (s.sect sb.bmapstart) b = true ↔
    b < sb.nmeta ∨ b ≠ 0 ∧ ∃ x, (Store.of sb s.sect).addr x = b

/-- **Geometry.** The image that `mkfs` builds respects its geometry if it has at most 198 files,
and only then. -/
theorem mkfs_geometry (args : List Arg) (s : State)
    (hrun : main args State.start = .ok ((), s)) : Respects s ↔ args.length + 1 < ninodes := by
  constructor
  · intro h
    have hlast := h.inodes (args.length + 1) (Nat.succ_pos _)
    rw [main_freeinode hrun] at hlast
    exact hlast (Nat.lt_succ_self _)
  · intro hn
    have himg : Image ninodes args s := main_spec (by decide) hn hrun
    have hnmeta : sb.nmeta = nmeta := geometry_nmeta ninodes
    refine ⟨fun i _ hi => ?_, fun i k hk => ?_, himg.writes, fun b _ => ?_⟩
    · rw [himg.freeinode] at hi
      show i < ninodes
      omega
    · rw [hnmeta]
      exact himg.slotOf_range hk
    · rw [hnmeta]
      exact himg.bit_iff b

theorem mkfs_geometry_three_files :
    ∃ s, main threeFiles State.start = .ok ((), s) ∧ Respects s := by
  have hlt : threeFiles.length + 1 < ninodes := by decide
  obtain ⟨s, hrun, -⟩ := main_of_fits (by decide) hlt fits_threeFiles
  exact ⟨s, hrun, (mkfs_geometry threeFiles s hrun).mpr hlt⟩

/-- With 199 files, inode 200 is in use, and there are only 200 inodes. -/
theorem mkfs_geometry_inodes : ∃ s, main (emptyFiles 199) State.start = .ok ((), s) ∧
    ∃ i, 0 < i ∧ i < s.freeinode ∧ ¬ i < sb.ninodes := by
  have hlt : (emptyFiles 199).length + 1 < ipb * ninodeblocks := by
    rw [length_emptyFiles]
    decide
  obtain ⟨s, hrun, himg⟩ := main_of_fits le_rfl hlt (fits_emptyFiles (by decide))
  refine ⟨s, hrun, 200, by decide, ?_, by decide⟩
  rw [himg.freeinode, length_emptyFiles]
  decide

/-! ## Holes -/

section Kernel

variable {τ : Type} [DecidableEq τ] {S : Store}

/-- `balloc` of the kernel does not look at the number of inodes. -/
theorem balloc_geometry (t : τ) (n m : ℕ) :
    Fs.balloc (geometry n) t = Fs.balloc (geometry m) t := by
  have hin : ∀ b, ballocIn (geometry n) t b = ballocIn (geometry m) t b := fun _ => rfl
  have hfrom : ∀ k b, ballocFrom (geometry n) t k b = ballocFrom (geometry m) t k b := by
    intro k
    induction k with
    | zero => exact fun _ => rfl
    | succ k ih =>
      intro b
      rw [ballocFrom, ballocFrom, hin]
      simp only [ih]
  exact hfrom _ _

theorem bmap_geometry (t : τ) (n m : ℕ) (ip : Slot) :
    bmap (geometry n) t ip = bmap (geometry m) t ip := by
  funext bn
  simp only [bmap, bmapAddr, bmapEntry, balloc_geometry t n m]

theorem readiFrom_geometry (t : τ) (n m : ℕ) (ip : Slot) (dst : Dest) (l fuel tot off : ℕ)
    (acc : List UInt8) : readiFrom (geometry n) t ip dst l fuel tot off acc =
      readiFrom (geometry m) t ip dst l fuel tot off acc := by
  induction fuel generalizing tot off acc with
  | zero => rfl
  | succ fuel ih =>
    rw [readiFrom, readiFrom, bmap_geometry t n m]
    simp only [ih]

theorem readi_geometry (t : τ) (n m : ℕ) (ip : Slot) (dst : Dest) (off l : ℕ) :
    readi (geometry n) t ip dst off l = readi (geometry m) t ip dst off l := by
  simp only [readi, readiFrom_geometry t n m]

theorem RootAt.size (h : RootAt S args) (hn : args.length + 1 < 208) :
    (S.din rootIno).size.toNat = ((rootBytes args).length / 1024 + 1) * 1024 := by
  have hlen := length_rootBytes args
  rw [h.din]
  exact UInt32.toNat_ofNat_of_lt'
    (show ((rootBytes args).length / 1024 + 1) * 1024 < 2 ^ 32 by omega)

/-- The block after the entries of the root directory is missing if they fill their blocks. -/
theorem RootAt.hole (h : RootAt S args) (hn : args.length + 1 < 208)
    (hroot : (args.length + 2) % 64 = 0) :
    (args.length + 2) / 64 * bsize < (S.din rootIno).size.toNat ∧
      S.fileBlock rootIno ((args.length + 2) / 64) = 0 := by
  have hlen := length_rootBytes args
  have hsize := h.size hn
  refine ⟨show _ * 1024 < _ by omega, ?_⟩
  by_contra hb
  have hbn : (args.length + 2) / 64 * 1024 < (rootBytes args).length := (h.mapped _).mp hb
  omega

/-- The root directory has all its blocks if its entries do not fill them. -/
theorem RootAt.holeFreeAt (h : RootAt S args) (hn : args.length + 1 < 208)
    (hroot : (args.length + 2) % 64 ≠ 0) : S.HoleFreeAt rootIno := by
  have hlen := length_rootBytes args
  have hsize := h.size hn
  refine ⟨?_, fun bn hbn => (h.mapped bn).mpr ?_⟩
  · rw [hsize]
    show _ ≤ 268 * 1024
    omega
  · have hbn' : bn * 1024 < (S.din rootIno).size.toNat := hbn
    show bn * 1024 < (rootBytes args).length
    omega

theorem FileAt.holeFreeAt {x : Node} (h : FileAt S i x) : S.HoleFreeAt i := by
  refine ⟨?_, fun bn hbn => (h.mapped bn).mpr ?_⟩
  · rw [h.size]
    exact h.length_le
  · rwa [h.size] at hbn

/-- The inodes that are not zero. -/
theorem Image.holeFree (h : Image n args s) (hn : args.length + 1 < 208)
    (hroot : (args.length + 2) % 64 ≠ 0) : (Store.of (geometry n) s.sect).HoleFree := by
  intro i hi
  cases hx : nodes args i with
  | none =>
    rw [h.free i hx] at hi
    exact absurd rfl hi
  | some x =>
    match i, hx with
    | 1, _ => exact h.root.holeFreeAt hn hroot
    | k + 2, hx =>
      obtain ⟨a, ha, -⟩ := Option.map_eq_some_iff.mp hx
      exact (h.file k a ha).holeFreeAt

/-- An inode of the image without holes: it has all blocks up to its size, and the kernel reads it
without allocating. -/
def Whole (t : τ) (s : State) (i : ℕ) : Prop :=
  let S := Store.of (geometry (ipb * ninodeblocks)) s.sect
  (∀ bn, bn * bsize < (S.din i).size.toNat → S.fileBlock i bn ≠ 0) ∧
  ∀ (ks : Fs.State τ) (ip : Slot), ks.blocks = s.sect → (ks.itable ip).inum = i →
    (ks.itable ip).din = S.din i →
    (∀ bn, bn * bsize < (S.din i).size.toNat → ∃ a ≠ 0, bmap sb t ip bn ks = .ok (a, ks)) ∧
    ∀ dst off m, off < (S.din i).size.toNat → ∃ r, readi sb t ip dst off m ks = .ok (r, ks)

theorem Image.whole (himg : Image (ipb * ninodeblocks) args s)
    (hn : args.length + 1 < ipb * ninodeblocks) (hroot : (args.length + 2) % 64 ≠ 0) (t : τ)
    (hi : i < ipb * ninodeblocks) : Whole t s i := by
  unfold Whole
  intro S
  by_cases ht : (S.din i).type = 0
  · have hsize : (S.din i).size.toNat = 0 := by
      rw [show S.din i = .zero from himg.din_eq_zero ht]
      rfl
    rw [hsize]
    exact ⟨fun bn hbn => absurd hbn (Nat.not_lt_zero _), fun ks ip _ _ _ =>
      ⟨fun bn hbn => absurd hbn (Nat.not_lt_zero _),
        fun dst off m hoff => absurd hoff (Nat.not_lt_zero _)⟩⟩
  · have hf : S.HoleFreeAt i := himg.holeFree hn hroot i ht
    refine ⟨hf.mapped, fun ks ip hblocks hinum hdin => ?_⟩
    have hstore : ks.store (geometry (ipb * ninodeblocks)) = S := by
      rw [Fs.State.store, hblocks]
    rw [← hstore] at hdin ht
    have heff := Fs.State.eff_of_loaded hinum hdin
    have he : Editable (geometry (ipb * ninodeblocks)) ks ip :=
      .of_loaded hinum hdin hi ht (hstore ▸ himg.owned)
    rw [hstore] at heff
    refine ⟨fun bn hbn => ?_, fun dst off m _ => ?_⟩
    · have hmapped := hf.mapped bn hbn
      have hblock : (ks.eff (geometry (ipb * ninodeblocks)) ip).fileBlock
          (ks.itable ip).inum bn ≠ 0 := by
        rwa [heff, hinum]
      obtain ⟨a, hrun, ha⟩ := bmap_of_mapped he hblock
      rw [heff, hinum] at ha
      refine ⟨a, fun h0 => hmapped ?_, ?_⟩
      · rw [← ha, h0]
        rfl
      · rw [← hrun]
        exact congrFun (congrFun (bmap_geometry t ninodes _ ip) bn) ks
    · obtain ⟨r, hr⟩ := readi_spec he (by rwa [heff, hinum]) dst off m
      refine ⟨r, ?_⟩
      rw [← hr]
      exact congrFun (readi_geometry t ninodes _ ip dst off m) ks

/-- **No holes.** With at most 206 files, so that their inodes fit the inode blocks, the image has
no holes unless the entries of the root directory fill their blocks, and only then. -/
theorem mkfs_hole_free (args : List Arg) (hn : args.length + 1 < ipb * ninodeblocks) (s : State)
    (hrun : main args State.start = .ok ((), s)) (t : τ) :
    (∀ i < ipb * ninodeblocks, Whole t s i) ↔ (args.length + 2) % 64 ≠ 0 := by
  have himg : Image (ipb * ninodeblocks) args s := main_spec le_rfl hn hrun
  refine ⟨fun h hroot => ?_, fun hroot i hi => himg.whole hn hroot t hi⟩
  obtain ⟨hlt, hzero⟩ := himg.root.hole hn hroot
  exact (h rootIno (by decide)).1 _ hlt hzero

theorem mkfs_hole_free_three_files :
    ∃ s, main threeFiles State.start = .ok ((), s) ∧ ∀ i < ipb * ninodeblocks, Whole () s i := by
  have hlt : threeFiles.length + 1 < ipb * ninodeblocks := by decide
  obtain ⟨s, hrun, -⟩ := main_of_fits le_rfl hlt fits_threeFiles
  exact ⟨s, hrun, (mkfs_hole_free threeFiles hlt s hrun ()).mpr (by decide)⟩

/-- `balloc` outside a transaction, on a disk that is not full. -/
theorem balloc_outside {ks : Fs.State τ} (t : τ) (hops : ks.ops = []) {b : ℕ} (hb : b < fssize)
    (hfree : Bytes.bit (ks.blocks sb.bmapstart) b = false) :
    Fs.balloc sb t ks = .error .logWriteOutside := by
  have hturns : (sb.size + bpb - 1) / bpb = 1 := by
    show (2000 + 8192 - 1) / 8192 = 1
    norm_num
  have hin : ballocIn sb t 0 ks = .error .logWriteOutside := by
    have hblock : sb.bblock 0 = sb.bmapstart := by decide
    have hrange : min bpb (sb.size - 0) = fssize := by decide
    rw [ballocIn, bread_bind, hblock, hrange]
    cases hfind : (List.range fssize).find? fun bi =>
        !Bytes.bit (ks.blocks sb.bmapstart) bi with
    | none =>
      have := List.find?_eq_none.mp hfind b (mem_range.mpr hb)
      rw [hfree] at this
      exact absurd rfl this
    | some bi =>
      refine bind_of_error ?_
      rw [logWrite, hops]
      rfl
  rw [Fs.balloc, hturns, ballocFrom]
  exact bind_of_error hin

/-- With 62 files, the second block of the root directory is not there, and the kernel panics when
a process reads it. -/
theorem mkfs_hole_free_root : ∃ s, main (emptyFiles 62) State.start = .ok ((), s) ∧
    let S := Store.of (geometry (ipb * ninodeblocks)) s.sect
    1 * bsize < (S.din rootIno).size.toNat ∧ S.fileBlock rootIno 1 = 0 ∧
    ∀ (ks : Fs.State Unit) (ip : Slot), ks.blocks = s.sect → ks.ops = [] →
      (ks.itable ip).din = S.din rootIno →
      readi sb () ip (fun _ _ => true) 1024 16 ks = .error .logWriteOutside := by
  have hlt : (emptyFiles 62).length + 1 < ipb * ninodeblocks := by
    rw [length_emptyFiles]
    decide
  obtain ⟨s, hrun, himg⟩ := main_of_fits le_rfl hlt (fits_emptyFiles (by decide))
  have hlen : (rootBytes (emptyFiles 62)).length = 1024 := by
    rw [length_rootBytes, length_emptyFiles]
  have hsize := himg.root.size hlt
  have hzero := (himg.root.hole hlt (by rw [length_emptyFiles])).2
  rw [length_emptyFiles] at hzero
  rw [hlen] at hsize
  refine ⟨s, hrun, ?_, hzero, fun ks ip hblocks hops hdin => ?_⟩
  · show 1 * 1024 < _
    omega
  · have haddr : (ks.itable ip).din.addrs ⟨1, by decide⟩ = 0 := by
      rw [Store.fileBlock, show Store.fileSlot 1 = 1 from rfl,
        show (Store.of (geometry (ipb * ninodeblocks)) s.sect).addr (rootIno, 1) = _ from
          Store.addr_of_lt (by rw [himg.root.type_eq]; decide) ⟨1, by decide⟩] at hzero
      rw [hdin]
      exact UInt32.toNat_inj.mp hzero
    have hfree : Bytes.bit (ks.blocks sb.bmapstart) 48 = false := by
      have h34 : blocksOf (16 * (62 + 2)) = 1 := by decide
      have := nmeta_eq
      rw [hblocks, himg.bits, need_emptyFiles, h34]
      exact decide_eq_false (by omega)
    have hballoc := balloc_outside () hops (show 48 < fssize by decide) hfree
    have hbmap : bmap sb () ip 1 ks = .error .logWriteOutside := by
      rw [bmap, dif_pos (by decide), bmapAddr, inode_bind, if_pos haddr, bind_of_error hballoc]
    rw [← hdin] at hsize
    rw [readi, inode_bind, if_neg (by omega)]
    simp only [if_neg (show ¬ (ks.itable ip).din.size.toNat < 1024 + 16 by omega)]
    rw [readiFrom, if_pos (by decide)]
    exact bind_of_error hbmap

end Kernel

end Mkfs

end TrinityXv6
