import TrinityXv6.Fs.DirSpec
import TrinityXv6.Mkfs.Append

/-!
# The image that `mkfs` builds

The loop over the arguments adds one inode and one entry of the root directory for each of them.
As long as the inode numbers stay inside the inode blocks, the image then holds the files, and it
has as many blocks in use as the files need; `mkfs` gives up only if something is wrong with an
argument or there are not enough blocks.

Nothing in `mkfs` keeps the inode numbers inside the inode blocks, or below `NINODES`, and the
size of the root directory is rounded up to the block after its last entry, which is not there if
the entries fill their blocks.
-/

namespace TrinityXv6

namespace Mkfs

open Command Fs
open Store
open List
open Function (update update_self update_of_ne update_eq_self update_idem)

variable {s s' : State} {n i : ℕ} {F : ℕ → Option Node} {b : List UInt8} {E : Abort → Prop}

/-! ## What the arguments ask for -/

/-- The entries of the root directory. -/
def entries (args : List Arg) : List (ℕ × List UInt8) :=
  (rootIno, dot) :: (rootIno, dotdot) :: args.mapIdx fun k a => (k + 2, a.shortname)

/-- The bytes of the root directory. -/
def rootBytes (args : List Arg) : List UInt8 := (entries args).flatMap fun e => dirent e.1 e.2

/-- What the inodes are to hold. -/
def nodes (args : List Arg) : ℕ → Option Node
  | 0 => none
  | 1 => some ⟨tDir, rootBytes args⟩
  | k + 2 => args[k]?.map fun a => ⟨tFile, a.bytes⟩

/-- How many data blocks that takes. -/
def need (args : List Arg) : ℕ :=
  blocksOf (16 * (args.length + 2)) + (args.map fun a => blocksOf a.bytes.length).sum

/-- An argument that `mkfs` accepts. -/
def Arg.Good (a : Arg) : Prop :=
  slash ∉ a.base ∧ a.file ≠ none ∧ a.shortname.length ≤ dirSiz ∧
    a.bytes.length ≤ maxFile * bsize

/-- Arguments that `mkfs` accepts. -/
def Fits (args : List Arg) : Prop := (∀ a ∈ args, a.Good) ∧ nmeta + need args ≤ fssize

theorem length_dirent (inum : ℕ) (name : List UInt8) : (dirent inum name).length = 16 := by
  rw [dirent, length_map, length_range]

section

variable (args : List Arg)
include args

theorem entries_concat (a : Arg) :
    entries (args ++ [a]) = entries args ++ [(args.length + 2, a.shortname)] := by
  simp [entries, mapIdx_append]

theorem length_entries : (entries args).length = args.length + 2 := by
  simp [entries]

theorem rootBytes_concat (a : Arg) :
    rootBytes (args ++ [a]) = rootBytes args ++ dirent (args.length + 2) a.shortname := by
  rw [rootBytes, entries_concat, flatMap_append]
  simp [rootBytes]

theorem length_rootBytes : (rootBytes args).length = 16 * (args.length + 2) := by
  rw [rootBytes, length_flatMap, ← length_entries]
  simp only [length_dirent, map_const', sum_replicate_nat]
  exact Nat.mul_comm ..

/-- One argument more, in the order of `main`: the inode, its entry, its bytes. -/
theorem nodes_concat (a : Arg) : update (update (update (nodes args) (args.length + 2)
      (some ⟨tFile, []⟩)) 1 (some ⟨tDir, rootBytes args ++ dirent (args.length + 2) a.shortname⟩))
      (args.length + 2) (some ⟨tFile, a.bytes⟩) = nodes (args ++ [a]) := by
  funext i
  match i with
  | 0 => rfl
  | 1 =>
    rw [update_of_ne (by omega), update_self, nodes, rootBytes_concat]
  | k + 2 =>
    by_cases hk : k = args.length
    · subst hk
      rw [update_self, nodes, getElem?_append_right le_rfl, Nat.sub_self]
      rfl
    · rw [update_of_ne (by omega), update_of_ne (by omega), update_of_ne (by omega), nodes, nodes]
      by_cases hlt : k < args.length
      · rw [getElem?_append_left hlt]
      · rw [getElem?_eq_none (by omega), getElem?_eq_none (by simp; omega)]

theorem need_concat (a : Arg) : need (args ++ [a]) + blocksOf (16 * (args.length + 2)) =
      need args + blocksOf (16 * (args.length + 2) + 16) + blocksOf a.bytes.length := by
  have hlen : 16 * ((args ++ [a]).length + 2) = 16 * (args.length + 2) + 16 := by
    rw [length_append, length_singleton]
    omega
  simp only [need, hlen, map_append, sum_append, map_singleton, sum_singleton]
  omega

end

theorem need_le_append (args rest : List Arg) : need args ≤ need (args ++ rest) := by
  have hlen : 16 * (args.length + 2) ≤ 16 * ((args ++ rest).length + 2) := by
    rw [length_append]
    omega
  have := blocksOf_mono hlen
  simp only [need, map_append, sum_append]
  omega

variable {args rest : List Arg}

theorem Fits.of_append (h : Fits (args ++ rest)) : Fits args :=
  ⟨fun a ha => h.1 a (mem_append_left _ ha),
    (Nat.add_le_add_left (need_le_append args rest) _).trans h.2⟩

/-! ## The loops of `main` -/

theorem Overflows.mono {l m m' : ℕ} (h : Overflows l m s) (hm : m ≤ m') : Overflows l m' s := by
  have := blocksOf_mono (show l + m ≤ l + m' by omega)
  simp only [Overflows] at h ⊢
  omega

theorem blocksOf_zero : blocksOf 0 = 0 := by
  simp [blocksOf]

variable (hn : n ≤ ipb * ninodeblocks)
include hn

theorem appendAll_spec {ty : Int16} (hi : i < n) (cs : List (List UInt8)) (hb : Built n s F)
    (hF : F i = some ⟨ty, b⟩) (hE : Overflows b.length cs.flatten.length s → ∀ e, E e) :
    Ends (appendAll i cs s) (fun _ s' => Built n s' (update F i (some ⟨ty, b ++ cs.flatten⟩)) ∧
      s'.freeinode = s.freeinode ∧
      s'.freeblock + blocksOf b.length = s.freeblock + blocksOf (b.length + cs.flatten.length))
      E := by
  induction cs generalizing s F b with
  | nil =>
    refine ⟨?_, rfl, rfl⟩
    rw [flatten_nil, append_nil, ← hF, update_eq_self]
    exact hb
  | cons c cs ih =>
    have hlen : (c :: cs).flatten.length = c.length + cs.flatten.length := by
      rw [flatten_cons, length_append]
    rw [hlen] at hE ⊢
    refine (iappend_spec hn hi hb hF fun h => hE (h.mono (Nat.le_add_right ..))).bind
      fun _ s₁ h₁ => ?_
    obtain ⟨hb₁, hfree₁, hcount₁⟩ := h₁
    have hrest := ih hb₁ (update_self ..) fun h => hE (by
      simp only [Overflows, length_append] at h ⊢
      rw [← Nat.add_assoc]
      omega)
    refine hrest.imp fun _ s₂ h₂ => ?_
    obtain ⟨hb₂, hfree₂, hcount₂⟩ := h₂
    refine ⟨?_, hfree₂.trans hfree₁, ?_⟩
    · rwa [update_idem, append_assoc, ← flatten_cons] at hb₂
    · rw [length_append, Nat.add_assoc] at hcount₂
      omega

/-- What holds of the image when the arguments `args` have been added. -/
structure Stage (n : ℕ) (args : List Arg) (s : State) : Prop where
  built : Built n s (nodes args)
  freeinode : s.freeinode = args.length + 2
  freeblock : s.freeblock = nmeta + need args

omit hn in
theorem nodes_eq_none (args : List Arg) : nodes args (args.length + 2) = none := by
  rw [nodes, getElem?_eq_none le_rfl]
  rfl

theorem addFile_spec {a : Arg} (hlt : args.length + 2 < n) (h : Stage n args s)
    (hE : ¬ Fits (args ++ [a]) → ∀ e, E e) :
    Ends (addFile rootIno a s) (fun _ s' => Stage n (args ++ [a]) s') E := by
  have hbad : ¬ a.Good → ∀ e, E e := fun ha => hE fun hf => ha (hf.1 a (by simp))
  have hneed := need_concat args a
  rw [addFile]
  by_cases hs : slash ∈ a.base
  · rw [if_pos hs]
    exact hbad (fun ha => ha.1 hs) _
  rw [if_neg hs]
  cases hf : a.file with
  | none => exact hbad (fun ha => ha.2.1 hf) _
  | some cs =>
    have hbytes : a.bytes = cs.flatten := by rw [Arg.bytes, hf]; rfl
    by_cases hl : dirSiz < a.shortname.length
    · simp only [if_pos hl]
      exact hbad (fun ha => absurd ha.2.2.1 (not_le.mpr hl)) _
    · simp only [if_neg hl]
      have hnone : nodes args s.freeinode = none := by rw [h.freeinode, nodes_eq_none]
      have hfile : tFile ≠ 0 := by decide
      obtain ⟨s₁, hrun, hb₁, hfree₁, hblk₁⟩ := ialloc_eq hn
        (by rw [h.freeinode]; exact hlt) h.built hnone hfile
      rw [h.freeinode] at hrun hb₁ hfree₁
      rw [bind_of_ok hrun]
      have hroot : update (nodes args) (args.length + 2) (some ⟨tFile, []⟩) rootIno =
          some ⟨tDir, rootBytes args⟩ := update_of_ne (show 1 ≠ _ by omega) ..
      have hone : rootIno < n := show 1 < n by omega
      -- the root directory may have no room for the entry
      have hentry := iappend_spec (p := dirent (args.length + 2) a.shortname) hn hone hb₁
        hroot fun hov => hE fun hfit => by
          have hmax : maxFile * bsize = 268 * 1024 := rfl
          have hn' : n ≤ 208 := hn
          have := hfit.2
          rw [Overflows, length_dirent, length_rootBytes, hblk₁, h.freeblock] at hov
          omega
      refine hentry.bind fun _ s₂ h₂ => ?_
      obtain ⟨hb₂, hfree₂, hblk₂⟩ := h₂
      rw [length_dirent, length_rootBytes, hblk₁, h.freeblock] at hblk₂
      have hnew : update (update (nodes args) (args.length + 2)
          (some ⟨tFile, []⟩)) rootIno
          (some ⟨tDir, rootBytes args ++ dirent (args.length + 2) a.shortname⟩)
          (args.length + 2) = some ⟨tFile, []⟩ := by
        have hne : args.length + 2 ≠ rootIno := show _ ≠ 1 by omega
        rw [update_of_ne hne, update_self]
      have h0 := blocksOf_zero
      rw [hbytes] at hneed
      have hfile := appendAll_spec hn hlt cs hb₂ hnew fun hov => hE fun hfit => by
        have hgood := (hfit.1 a (by simp)).2.2.2
        have := hfit.2
        rw [hbytes] at hgood
        simp only [Overflows, length_nil, Nat.zero_add] at hov
        omega
      refine hfile.imp fun _ s₃ h₃ => ?_
      obtain ⟨hb₃, hfree₃, hblk₃⟩ := h₃
      refine ⟨?_, ?_, ?_⟩
      · rw [nil_append, ← hbytes, nodes_concat] at hb₃
        exact hb₃
      · rw [hfree₃, hfree₂, hfree₁, length_append, length_singleton]
      · simp only [length_nil, Nat.zero_add] at hblk₃
        omega

theorem addFiles_spec (hlt : (args ++ rest).length + 1 < n) (h : Stage n args s)
    (hE : ¬ Fits (args ++ rest) → ∀ e, E e) :
    Ends (addFiles rootIno rest s) (fun _ s' => Stage n (args ++ rest) s') E := by
  induction rest generalizing args s with
  | nil =>
    rw [append_nil]
    exact h
  | cons a rest ih =>
    have happ : args ++ a :: rest = (args ++ [a]) ++ rest := by simp
    rw [happ] at hlt hE ⊢
    have hlt' : args.length + 2 < n := by
      simp only [length_append, length_singleton] at hlt
      omega
    refine (addFile_spec hn hlt' h fun hf => hE fun hf' => hf hf'.of_append).bind
      fun _ s₁ h₁ => ?_
    exact ih hlt h₁ hE

/-! ## The beginning of `main` -/

/-- The image with `m` sectors, all of them zero. -/
def State.zeroed (m : ℕ) : State := { State.start with nsect := m }

omit hn in
theorem wsect_zeroes {j : ℕ} (hj : j < 2 ^ 22) :
    wsect j zeroes (State.zeroed j) = .ok ((), State.zeroed (j + 1)) := by
  have hupd : update State.start.sect j zeroes = State.start.sect :=
    update_eq_self ..
  have hmax : max j (j + 1) = j + 1 := Nat.max_eq_right (Nat.le_succ j)
  rw [wsect, modify_apply, sector_of_lt hj]
  simp only [State.zeroed, hupd, hmax]

omit hn in
theorem loop_zeroes {j m : ℕ} (h : j + m ≤ 2 ^ 22) :
    loop (fun i => wsect i zeroes) j m (State.zeroed j) = .ok ((), State.zeroed (j + m)) := by
  induction m generalizing j with
  | zero => rfl
  | succ m ih =>
    rw [loop, bind_of_ok (wsect_zeroes (by omega)), ih (by omega), Nat.add_right_comm]
    rfl

theorem built_super : Built n ((State.zeroed fssize).set 1 superBlock) fun _ => none := by
  have hsect : ∀ a, a ≠ 1 → ((State.zeroed fssize).set 1 superBlock).sect a = zeroes := fun a ha =>
    update_of_ne ha ..
  have hdin : ∀ i, (((State.zeroed fssize).set 1 superBlock).view n).din i = .zero := fun i => by
    rw [State.view_din]
    by_cases hi : i < (geometry n).ninodes
    · have hne : (geometry n).iblock i ≠ 1 := by
        have : 33 ≤ (geometry n).iblock i := (iblock_lt hn hi).1
        omega
      rw [of_din hi, hsect _ hne]
      exact getDinode_zero _
    · exact of_din_of_not_lt hi
  have haddr : ∀ x, (((State.zeroed fssize).set 1 superBlock).view n).addr x = 0 := fun x => by
    obtain ⟨i, k⟩ := x
    exact addr_of_free (by rw [hdin]; rfl) k
  have hsuper := (State.zeroed fssize).set_sect_self 1 superBlock
  refine ⟨⟨rfl, le_rfl, by decide, fun a ha => hsect a ?_, hsuper, ?_⟩, ?_⟩
  · have : 47 ≤ a := ha
    omega
  · intro b hb
    cases hb
  · refine ⟨⟨fun x y hx => absurd (haddr x) hx, fun x hx => absurd (haddr x) hx, fun b _ => ?_⟩,
      fun i x hx => (Option.some_ne_none x hx.symm).elim, fun i _ => hdin i⟩
    rw [geometry_nmeta]
    constructor
    · intro hb
      exact .inl (of_decide_eq_true hb)
    · rintro (hb | ⟨hb, x, hx⟩)
      · exact decide_eq_true hb
      · exact absurd (hx.symm.trans (haddr x)) hb

omit hn in
theorem update_nodes_nil : update (fun _ => none) rootIno (some ⟨tDir, dirent rootIno dot ++
      dirent rootIno dotdot⟩) = nodes [] := by
  funext i
  match i with
  | 0 => rfl
  | 1 => rfl
  | k + 2 => exact update_of_ne (show k + 2 ≠ 1 by omega) ..

/-- **The root directory** of an image without files. -/
theorem main_root (hlt : rootIno < n) :
    ∃ s, Stage n [] s ∧ ∀ args, main args State.start = (do
      addFiles rootIno args
      finish rootIno : Mk Unit) s := by
  have hsup := built_super hn
  have hdir : tDir ≠ 0 := by decide
  obtain ⟨s₁, hrun, hb₁, hfree₁, hblk₁⟩ := ialloc_eq hn hlt hsup rfl hdir
  have hroot : ((State.zeroed fssize).set 1 superBlock).freeinode = rootIno := rfl
  rw [hroot] at hrun hb₁ hfree₁
  have h0 := blocksOf_zero
  have h16 : blocksOf 16 = 1 := by decide
  have h32 : blocksOf 32 = 1 := by decide
  have hmax : maxFile * bsize = 268 * 1024 := rfl
  have hfree : s₁.freeblock = 47 := hblk₁
  have := fssize_eq
  obtain ⟨⟨⟩, s₂, hrun₂, hb₂, hfree₂, hblk₂⟩ := (iappend_spec (p := dirent rootIno dot)
    hn hlt hb₁ (update_self ..) fun hov => by
      simp only [Overflows, length_dirent, length_nil, Nat.zero_add] at hov
      omega).exists_ok
  simp only [length_dirent, length_nil, Nat.zero_add] at hblk₂
  obtain ⟨⟨⟩, s₃, hrun₃, hb₃, hfree₃, hblk₃⟩ := (iappend_spec (p := dirent rootIno dotdot)
    hn hlt hb₂ (update_self ..) fun hov => by
      simp only [Overflows, length_dirent, nil_append, Nat.reduceAdd] at hov
      omega).exists_ok
  simp only [length_dirent, nil_append, Nat.reduceAdd] at hblk₃
  refine ⟨s₃, ⟨?_, ?_, ?_⟩, fun args => ?_⟩
  · rw [update_idem, update_idem, nil_append] at hb₃
    rw [← update_nodes_nil]
    exact hb₃
  · rw [hfree₃, hfree₂, hfree₁]
    rfl
  · show s₃.freeblock = 47 + (blocksOf 32 + 0)
    omega
  · have hloop : loop (fun i => wsect i zeroes) 0 fssize State.start =
        .ok ((), State.zeroed (0 + fssize)) := loop_zeroes (by decide)
    rw [main, bind_of_ok hloop, Nat.zero_add, bind_of_ok (wsect_eq rfl (by decide) _),
      bind_of_ok hrun]
    rw [if_pos rfl, bind_of_ok hrun₂, bind_of_ok hrun₃]

/-! ## The end of `main` -/

omit hn in
theorem bit_bitmap {used : ℕ} (h : used ≤ bpb) (b : ℕ) :
    Bytes.bit (bitmap used) b = decide (b < used) := by
  induction used with
  | zero =>
    rw [bitmap]
    simp [Bytes.bit, Bytes.byte, zeroes]
  | succ used ih =>
    have hlt : used < 8 * bsize := Nat.lt_of_succ_le h
    have hfold : bitmap (used + 1) = Bytes.putBit (bitmap used) used true := by
      rw [bitmap, range_succ, foldl_append]
      rfl
    rw [hfold, Bytes.bit_putBit hlt, ih (Nat.le_of_succ_le h)]
    by_cases hb : b = used
    · subst hb
      simp
    · rw [if_neg hb]
      exact decide_eq_decide.mpr (by omega)

omit hn in
/-- One block holds the bitmap. -/
theorem of_bit_geometry {m : ℕ → Blk} {b : ℕ} (hb : b < (geometry n).size) :
    (Store.of (geometry n) m).bit b = Bytes.bit (m sb.bmapstart) b := by
  have hb' : b < 2000 := hb
  have hblock : (geometry n).bblock b = sb.bmapstart := by
    show b / 8192 + 46 = 46
    omega
  have hmod : b % bpb = b := Nat.mod_eq_of_lt (show b < 8192 by omega)
  rw [of_bit hb, hblock, hmod]

/-- The root directory in the end. Its size is that of its blocks or, if the entries fill their
blocks, one block more than there is. -/
structure RootAt (S : Store) (args : List Arg) : Prop where
  din : S.din rootIno = ⟨tDir, 0, 0, 1,
    UInt32.ofNat (((rootBytes args).length / bsize + 1) * bsize), (S.din rootIno).addrs⟩
  mapped : ∀ bn, S.fileBlock rootIno bn ≠ 0 ↔ bn * bsize < (rootBytes args).length
  content : ∀ p, S.content rootIno p = (rootBytes args).getD p 0

omit hn in
theorem RootAt.type_eq {S : Store} (h : RootAt S args) : (S.din rootIno).type = tDir := by
  rw [h.din]

/-- What holds of the image in the end. -/
structure Image (n : ℕ) (args : List Arg) (s : State) : Prop where
  freeinode : s.freeinode = args.length + 2
  super : s.sect 1 = superBlock
  writes : ∀ b ∈ s.inodeWrites, sb.inodestart ≤ b ∧ b < sb.bmapstart
  room : nmeta + need args ≤ fssize
  bits : ∀ b, Bytes.bit (s.sect sb.bmapstart) b = decide (b < nmeta + need args)
  owned : (Store.of (geometry n) s.sect).Owned (geometry n)
  root : RootAt (Store.of (geometry n) s.sect) args
  file : ∀ k a, args[k]? = some a → FileAt (Store.of (geometry n) s.sect) (k + 2) ⟨tFile, a.bytes⟩
  free : ∀ i, nodes args i = none → (Store.of (geometry n) s.sect).din i = .zero

/-- The bitmap makes the view what is on the disk. -/
theorem of_set_bitmap (hc : Clean s) :
    Store.of (geometry n) (s.set sb.bmapstart (bitmap s.freeblock)).sect = s.view n := by
  have hsize : (geometry n).size = 2000 := rfl
  have hstart : sb.bmapstart = 46 := rfl
  have hhigh : s.freeblock ≤ 2000 := hc.high
  have hother : ∀ c, c ≠ sb.bmapstart →
      (s.set sb.bmapstart (bitmap s.freeblock)).sect c = s.sect c := fun c hc' =>
    s.set_sect _ hc'
  refine Store.ext (funext fun b => ?_) (funext fun i => ?_) (funext fun a => ?_)
  · show _ = decide (b < s.freeblock)
    by_cases hb : b < (geometry n).size
    · rw [of_bit_geometry hb, State.set_sect_self, bit_bitmap (show s.freeblock ≤ 8192 by omega)]
    · rw [of_bit_of_not_lt hb]
      exact (decide_eq_false (by omega)).symm
  · rw [State.view_din]
    by_cases hi : i < (geometry n).ninodes
    · have hne : (geometry n).iblock i ≠ sb.bmapstart := (iblock_lt hn hi).2.ne
      rw [of_din hi, of_din hi, hother _ hne]
    · rw [of_din_of_not_lt hi, of_din_of_not_lt hi]
  · rw [State.view_store]
    by_cases ha : (geometry n).nmeta ≤ a
    · have hne : a ≠ sb.bmapstart := by
        rw [geometry_nmeta, nmeta_eq] at ha
        omega
      rw [of_data ha, of_data ha, hother _ hne]
    · rw [of_data_of_not_le ha, of_data_of_not_le ha]

omit hn in
theorem round_size {l : ℕ} (h : l ≤ maxFile * bsize) :
    (UInt32.ofNat l / UInt32.ofNat bsize + 1) * UInt32.ofNat bsize =
      UInt32.ofNat ((l / bsize + 1) * bsize) := by
  have hl : l ≤ 268 * 1024 := h
  refine UInt32.toNat_inj.mp ?_
  rw [UInt32.toNat_mul, UInt32.toNat_add, UInt32.toNat_div]
  simp only [UInt32.toNat_ofNat', UInt32.toNat_one]
  show ((l % 2 ^ 32 / 1024 + 1) % 2 ^ 32 * 1024) % 2 ^ 32 = (l / 1024 + 1) * 1024 % 2 ^ 32
  have hmod : l % 2 ^ 32 = l := Nat.mod_eq_of_lt (by omega)
  rw [hmod, Nat.mod_eq_of_lt (show l / 1024 + 1 < 2 ^ 32 by omega)]

/-- **The end of `main`.** -/
theorem finish_spec (hlt : rootIno < n) (h : Stage n args s) :
    ∃ s', finish rootIno s = .ok ((), s') ∧ Image n args s' := by
  have hc := h.built.clean
  have hroot := h.built.holds.node rootIno ⟨tDir, rootBytes args⟩ rfl
  have hsize : ((s.view n).din rootIno).size = UInt32.ofNat (rootBytes args).length := by
    rw [hroot.din]
  set x : Dinode := { (s.view n).din rootIno with
    size := (((s.view n).din rootIno).size / UInt32.ofNat bsize + 1) * UInt32.ofNat bsize } with hx
  have hc' := hc.putInode hn hlt x
  have hbpb : (s.putInode rootIno x).freeblock < bpb := hc.high.trans_lt (by decide)
  have hstore := of_set_bitmap hn hc'
  rw [s.view_putInode hn hlt] at hstore
  have hgrows := Store.Grows.setSize h.built.holds.owned rootIno
    ((((s.view n).din rootIno).size / UInt32.ofNat bsize + 1) * UInt32.ofNat bsize)
  have hrun : finish rootIno s = .ok ((), (s.putInode rootIno x).set sb.bmapstart
      (bitmap (s.putInode rootIno x).freeblock)) := by
    rw [finish, bind_of_ok (hc.rinode hn hlt), bind_of_ok (hc.winode hn hlt x), get_bind, balloc,
      if_pos hbpb]
    exact wsect_eq hc'.nsect (by decide) _
  refine ⟨_, hrun, ⟨h.freeinode, ?_, hc'.writes, h.freeblock ▸ hc.high, fun b => ?_, ?_, ?_,
    fun k a hk => ?_, fun i hi => ?_⟩⟩
  · have hne : 1 ≠ sb.bmapstart := by decide
    rw [State.set_sect _ _ hne, hc'.super]
  · rw [State.set_sect_self, bit_bitmap hbpb.le]
    exact congrArg (fun c => decide (b < c)) h.freeblock
  · rw [hstore]
    exact hgrows.owned
  · rw [hstore]
    refine ⟨?_, fun bn => ?_, fun p => ?_⟩
    · rw [edit_din_self, hx, hsize, round_size hroot.length_le, hroot.din]
    · rw [Store.fileBlock, hx, addr_setSize]
      exact hroot.mapped bn
    · rw [hx, content_setSize]
      exact hroot.content p
  · rw [hstore]
    have hne : k + 2 ≠ rootIno := by simp [rootIno]
    refine (h.built.holds.node (k + 2) _ ?_).congr (hgrows.din_of_ne _ hne)
      (hgrows.addr_of_ne _ hne) (hgrows.content_of_ne hne)
    rw [nodes, hk]
    rfl
  · have hne : i ≠ rootIno := by
      rintro rfl
      cases hi
    rw [hstore, edit_din_of_ne _ _ hne, h.built.holds.free i hi]

/-- **`mkfs`** builds an image with the files, or there is something wrong with an argument or no
room. -/
theorem main_spec (hlt : args.length + 1 < n) {r : Except Abort (Unit × State)}
    (hr : main args State.start = r) : Ends r (fun _ s => Image n args s) fun _ => ¬ Fits args := by
  have hone : rootIno < n := show 1 < n by omega
  obtain ⟨s₀, h₀, hrun⟩ := main_root hn hone
  have hfiles : Ends (addFiles rootIno args s₀) (fun _ s => Stage n ([] ++ args) s)
      fun _ => ¬ Fits args := addFiles_spec hn hlt h₀ fun hf _ => hf
  rw [← hr, hrun args]
  refine hfiles.bind fun _ s₁ h₁ => ?_
  obtain ⟨s₂, hfin, himg⟩ := finish_spec hn hone h₁
  rw [hfin]
  exact himg

/-- `mkfs` builds an image of arguments that it accepts. -/
theorem main_of_fits (hlt : args.length + 1 < n) (hf : Fits args) :
    ∃ s, main args State.start = .ok ((), s) ∧ Image n args s := by
  generalize hr : main args State.start = r
  have hspec := main_spec hn hlt hr
  cases r with
  | ok x => exact ⟨x.2, rfl, hspec⟩
  | error e => exact absurd hf hspec

end Mkfs

end TrinityXv6
