import TrinityXv6.Mkfs.Geometry

/-!
# The kernel on an image of `mkfs`

`mkfs` and the kernel are two programs with one format. The image of any arguments that fit is one
on which the kernel finds each of the files: it reads the superblock that `mkfs` computed,
`namei` of the short name gives an inode, and `readi` of that inode gives the bytes of the file.
The image also satisfies the laws that the kernel keeps, of block ownership and of link counts.

The last block of the root directory may be missing, so that no step of the argument may rely on
the directory having all its blocks: the entry that is looked for comes before that block.

## Main results

* `readsb_superBlock` — the superblock
* `RootAt.dirEnt` — the entries of the root directory, as the kernel sees them
* `mkfs_kernel_agree` — the files
-/

namespace TrinityXv6

namespace Fs

/-- `readsb`, with the check of `fsinit`. -/
def readsb (d : Blk) : Option Superblock :=
  if Bytes.getU32 d 0 = Mkfs.fsmagic then
    some {
      size := (Bytes.getU32 d 4).toNat
      nblocks := (Bytes.getU32 d 8).toNat
      ninodes := (Bytes.getU32 d 12).toNat
      inodestart := (Bytes.getU32 d 24).toNat
      bmapstart := (Bytes.getU32 d 28).toNat }
  else none

end Fs

namespace Mkfs

open Command Fs
open Option

variable {s : State} {n i k m : ℕ} {args : List Arg} {a : Arg}

/-! ## The superblock -/

theorem getU32_superBlock {j : ℕ} (hj : j < 8) :
    Bytes.getU32 superBlock (4 * j) = superFields.getD j 0 := by
  refine Bytes.getU32_of_byteOf fun p hp => ?_
  have hfit : 0 + 32 ≤ bsize := by decide
  rw [superBlock, Bytes.byte_splice_of_mem hfit (Nat.zero_le _) (by omega), Nat.sub_zero,
    show (4 * j + p) / 4 = j by omega, show (4 * j + p) % 4 = p by omega]

/-- **`readsb`** reads what `main` wrote. -/
theorem readsb_superBlock : readsb superBlock = some sb := by
  have h := fun j (hj : j < 8) => getU32_superBlock hj
  rw [readsb, h 0 (by decide), h 1 (by decide), h 2 (by decide), h 3 (by decide),
    h 6 (by decide), h 7 (by decide)]
  rfl

/-! ## The root directory -/

/-- A list of records of one width, read at record `m`. -/
theorem getD_flatMap {α β : Type} {f : α → List β} {w : ℕ} (hf : ∀ x, (f x).length = w)
    {l : List α} {x : α} (hx : l[m]? = some x) {p : ℕ} (hp : p < w) (d : β) :
    (l.flatMap f).getD (w * m + p) d = (f x).getD p d := by
  induction l generalizing m with
  | nil => cases hx
  | cons y l ih =>
    rw [List.flatMap_cons]
    cases m with
    | zero =>
      obtain rfl : y = x := some.inj hx
      rw [Nat.mul_zero, Nat.zero_add, List.getD_append _ _ _ _ (by rwa [hf])]
    | succ m =>
      have hlen : (f y).length ≤ w * (m + 1) + p := by
        rw [hf, Nat.mul_succ]
        omega
      have hsub : w * (m + 1) + p - (f y).length = w * m + p := by
        rw [hf, Nat.mul_succ]
        omega
      rw [List.getD_append_right _ _ _ _ hlen, hsub]
      exact ih hx

theorem entries_one (args : List Arg) : (entries args)[1]? = some (rootIno, dotdot) := rfl

theorem entries_add_two (args : List Arg) (k : ℕ) :
    (entries args)[k + 2]? = args[k]?.map fun a => (k + 2, a.shortname) := by
  show (args.mapIdx fun k a => (k + 2, a.shortname))[k]? = _
  rw [List.getElem?_mapIdx]

variable {S : Store} {e : ℕ × List UInt8}

theorem entries_fst_lt (he : (entries args)[m]? = some e) : 0 < e.1 ∧ e.1 < args.length + 2 := by
  match m with
  | 0 | 1 =>
    obtain rfl := some.inj he
    exact ⟨Nat.one_pos, show 1 < _ by omega⟩
  | k + 2 =>
    rw [entries_add_two] at he
    obtain ⟨a, ha, rfl⟩ := map_eq_some_iff.mp he
    have := (List.getElem?_eq_some_iff.mp ha).1
    exact ⟨Nat.succ_pos _, show k + 2 < _ by omega⟩

theorem RootAt.entBytes (h : RootAt S args) (he : (entries args)[m]? = some e) {p : ℕ}
    (hp : p < 16) :
    S.content rootIno (16 * m + p) = direntBytes e.1 e.2 p := by
  rw [h.content, rootBytes, getD_flatMap (fun e => length_dirent e.1 e.2) he hp, dirent,
    List.getD_eq_getElem _ _ (by simpa using hp), List.getElem_map, List.getElem_range]

/-- An entry of the root directory. -/
theorem RootAt.ent (h : RootAt S args) (hn : args.length + 1 < ninodes)
    (he : (entries args)[m]? = some e) :
    entInum (S.content rootIno) m = e.1 ∧ entName (S.content rootIno) m = cstr e.2 := by
  have hlt := (entries_fst_lt he).2
  have := ninodes_eq
  refine ⟨?_, entName_direntBytes fun p hp => h.entBytes he hp⟩
  rw [entInum_direntBytes fun p hp => h.entBytes he hp]
  exact Nat.mod_eq_of_lt (by omega)

/-- **The root directory**, as the kernel sees it. -/
theorem RootAt.dirEnt (h : RootAt S args) (hn : args.length + 1 < ninodes) (m : ℕ) :
    S.dirEnt rootIno m = (entries args)[m]?.map fun e => (e.1, cstr e.2) := by
  have hlen := length_rootBytes args
  have hsize := h.size (hn.trans (by decide))
  cases he : (entries args)[m]? with
  | some e =>
    obtain ⟨hinum, hname⟩ := h.ent hn he
    have hm : m < args.length + 2 := by
      rw [← length_entries]
      exact (List.getElem?_eq_some_iff.mp he).1
    have hpos := (entries_fst_lt he).1
    rw [Store.dirEnt, if_pos ⟨by omega, by omega⟩, hinum, hname]
    rfl
  | none =>
    have hm : args.length + 2 ≤ m := by
      rw [← length_entries]
      exact List.getElem?_eq_none_iff.mp he
    have hzero : entInum (S.content rootIno) m = 0 := entInum_zero fun p _ => by
      rw [h.content, List.getD_eq_default _ _ (by omega)]
    rw [Store.dirEnt, if_neg fun h => h.2 hzero]
    rfl

/-! ## Names and links -/

theorem cstr_of_le {name : List UInt8} (h0 : 0 ∉ name) (hl : name.length ≤ dirSiz) :
    cstr name = name := by
  rw [cstr, List.take_of_length_le hl, List.takeWhile_eq_self_iff]
  intro c hc
  simpa using fun h : c = 0 => h0 (h ▸ hc)

theorem Arg.base_sublist (a : Arg) : a.base.Sublist a.path := by
  rw [Arg.base]
  split
  · exact List.drop_sublist ..
  · exact List.Sublist.refl _

theorem Arg.shortname_sublist (a : Arg) : a.shortname.Sublist a.base := by
  rw [Arg.shortname]
  split
  · exact List.drop_sublist ..
  · exact List.Sublist.refl _

theorem Arg.cstr_shortname (a : Arg) (h : a.shortname.length ≤ dirSiz) :
    cstr a.shortname = a.shortname :=
  cstr_of_le (fun h0 => a.nonzero ((a.shortname_sublist.trans a.base_sublist).mem h0)) h

/-- The short names that the kernel can look up in the root directory. -/
structure Names (args : List Arg) : Prop where
  nodup : (args.map Arg.shortname).Nodup
  ne_nil : ∀ a ∈ args, a.shortname ≠ []
  length_le : ∀ a ∈ args, a.shortname.length ≤ dirSiz
  ne_dot : ∀ a ∈ args, a.shortname ≠ dot
  ne_dotdot : ∀ a ∈ args, a.shortname ≠ dotdot

theorem cstr_dot : cstr dot = dot := by decide

theorem cstr_dotdot : cstr dotdot = dotdot := by decide

/-- The name of entry `m` stands in no other place. -/
theorem Names.cstr_ne (h : Names args) (ha : args[k]? = some a) (he : (entries args)[m]? = some e)
    (hm : m < k + 2) : cstr e.2 ≠ cstr a.shortname := by
  have hmem := List.mem_of_getElem? ha
  rw [a.cstr_shortname (h.length_le a hmem)]
  match m with
  | 0 =>
    obtain rfl := some.inj he
    rw [cstr_dot]
    exact (h.ne_dot a hmem).symm
  | 1 =>
    obtain rfl := some.inj he
    rw [cstr_dotdot]
    exact (h.ne_dotdot a hmem).symm
  | j + 2 =>
    rw [entries_add_two] at he
    obtain ⟨b, hb, rfl⟩ := map_eq_some_iff.mp he
    rw [b.cstr_shortname (h.length_le b (List.mem_of_getElem? hb))]
    intro heq
    have hj : (args.map Arg.shortname)[j]? = (args.map Arg.shortname)[k]? := by
      rw [List.getElem?_map, List.getElem?_map, ha, hb]
      exact congrArg some heq
    have hlt : j < (args.map Arg.shortname).length := by
      rw [List.length_map]
      exact (List.getElem?_eq_some_iff.mp hb).1
    have := (List.getElem?_inj hlt h.nodup).mp hj
    omega

/-- The one directory. -/
theorem Image.eq_root_of_type (h : Image n args s)
    (ht : ((Store.of (geometry n) s.sect).din i).type = tDir) : i = rootIno := by
  cases hx : nodes args i with
  | none =>
    rw [h.free i hx] at ht
    exact absurd ht (by decide)
  | some x =>
    match i, hx with
    | 1, _ => rfl
    | k + 2, hx =>
      obtain ⟨a, ha, -⟩ := map_eq_some_iff.mp hx
      rw [(h.file k a ha).din] at ht
      exact absurd ht (show tFile ≠ tDir by decide)

/-- The entry of an inode, apart from `"."`, stands in the place that its number says. -/
theorem Names.entry_iff (h : Names args) (hi : nodes args i ≠ none) :
    (∃ e, (entries args)[m]? = some e ∧ e.1 = i ∧ cstr e.2 ≠ dot) ↔ m = i := by
  constructor
  · rintro ⟨e, he, rfl, hdot⟩
    match m with
    | 0 =>
      obtain rfl := some.inj he
      exact absurd cstr_dot hdot
    | 1 =>
      obtain rfl := some.inj he
      rfl
    | k + 2 =>
      rw [entries_add_two] at he
      obtain ⟨a, -, rfl⟩ := map_eq_some_iff.mp he
      rfl
  · rintro rfl
    match m, hi with
    | 1, _ => exact ⟨_, entries_one args, rfl, by decide⟩
    | k + 2, hi =>
      obtain ⟨x, hx⟩ := ne_none_iff_exists'.mp hi
      obtain ⟨a, ha, -⟩ := map_eq_some_iff.mp hx
      have hmem := List.mem_of_getElem? ha
      refine ⟨(k + 2, a.shortname), by rw [entries_add_two, ha]; rfl, rfl, ?_⟩
      rw [a.cstr_shortname (h.length_le a hmem)]
      exact h.ne_dot a hmem

/-- **The link law** holds of an image. -/
theorem Image.linkCounts (h : Image n args s) (hn : args.length + 1 < ninodes)
    (hnames : Names args) : (Store.of (geometry n) s.sect).LinkCounts := by
  intro i hi
  have hnode : nodes args i ≠ none := fun hx => hi (by rw [h.free i hx]; rfl)
  have hroot : ((Store.of (geometry n) s.sect).din rootIno).nlink = 1 := by rw [h.root.din]
  have hlinks : (Store.of (geometry n) s.sect).linksTo i = {(rootIno, i)} := by
    ext e
    obtain ⟨d, m⟩ := e
    rw [Set.mem_singleton_iff, Prod.mk.injEq, ← hnames.entry_iff hnode]
    constructor
    · rintro ⟨ht, -, name, hname, hent⟩
      obtain rfl : d = rootIno := h.eq_root_of_type ht
      have hent' : (Store.of (geometry n) s.sect).dirEnt rootIno m = some (i, name) := hent
      rw [h.root.dirEnt hn] at hent'
      obtain ⟨e, he, heq⟩ := map_eq_some_iff.mp hent'
      obtain ⟨rfl, rfl⟩ := Prod.mk.inj heq
      exact ⟨rfl, e, he, rfl, hname⟩
    · rintro ⟨rfl, e, he, rfl, hname⟩
      refine ⟨h.root.type_eq, ?_, cstr e.2, hname, ?_⟩
      · rw [hroot]
        decide
      · rw [h.root.dirEnt hn, he]
        rfl
  refine ⟨1, by rw [hlinks, Set.encard_singleton, Nat.cast_one], ?_⟩
  obtain ⟨x, hx⟩ := ne_none_iff_exists'.mp hnode
  match i, hx with
  | 1, _ =>
    rw [show ((Store.of (geometry n) s.sect).din 1).nlink = 1 from hroot]
    rfl
  | k + 2, hx =>
    obtain ⟨a, ha, -⟩ := map_eq_some_iff.mp hx
    rw [(h.file k a ha).din]
    rfl

/-! ## The files -/

/-- An image is built only of names without slashes. -/
theorem slash_of_addFiles {root : ℕ} {s' : State} (h : addFiles root args s = .ok ((), s')) :
    ∀ a ∈ args, slash ∉ a.base := by
  induction args generalizing s with
  | nil => exact fun a ha => absurd ha List.not_mem_nil
  | cons b args ih =>
    rw [addFiles] at h
    by_cases hb : slash ∈ b.base
    · have herr : addFile root b s = .error .slash := by
        rw [addFile, if_pos hb]
        rfl
      rw [bind_of_error herr] at h
      cases h
    · cases hfile : addFile root b s with
      | error e =>
        rw [bind_of_error hfile] at h
        cases h
      | ok x =>
        rw [bind_of_ok hfile] at h
        intro a ha
        rcases List.mem_cons.mp ha with rfl | ha
        · exact hb
        · exact ih h a ha

theorem slash_of_main (h : main args State.start = .ok ((), s)) : ∀ a ∈ args, slash ∉ a.base := by
  obtain ⟨s₀, -, hrun⟩ := main_root (n := ninodes) (by decide) (by decide)
  rw [hrun args] at h
  cases hfiles : addFiles rootIno args s₀ with
  | error e =>
    rw [bind_of_error hfiles] at h
    cases h
  | ok x => exact slash_of_addFiles hfiles

section Kernel

variable {τ : Type} [DecidableEq τ] {t : τ} {ks : Fs.State τ}

/-- **`namei`** of a file of the image, and **`ilock`**. -/
theorem Image.namei (h : Image ninodes args s) (hn : args.length + 1 < ninodes)
    (hnames : Names args) (ha : args[k]? = some a) (hslash : slash ∉ a.base) (hq : ks.Quiet)
    (hblocks : ks.blocks = s.sect) :
    ∃ ip ks₁ ks₂, (Fs.namei sb (slash :: a.shortname)).solo t ks = some (some ip, ks₁) ∧
      (ilock sb ip).solo t ks₁ = some ((), ks₂) ∧ ks₂.blocks = s.sect ∧
      (ks₂.itable ip).inum = k + 2 ∧ (ks₂.itable ip).din = (Store.of sb s.sect).din (k + 2) := by
  have hmem := List.mem_of_getElem? ha
  have hk : k < args.length := (List.getElem?_eq_some_iff.mp ha).1
  have hstore : Store.of sb s.sect = ks.store sb := by rw [Fs.State.store, hblocks]
  have hroot : RootAt (Store.of sb s.sect) args := h.root
  have hfile : FileAt (Store.of sb s.sect) (k + 2) ⟨tFile, a.bytes⟩ := h.file k a ha
  have howned : (Store.of sb s.sect).Owned sb := h.owned
  rw [hstore] at hroot hfile howned ⊢
  have hlen := length_rootBytes args
  have hsize := hroot.size (hn.trans (by decide))
  have hlink : ((ks.store sb).din rootIno).nlink ≠ 0 := by
    rw [hroot.din]
    exact show (1 : Int16) ≠ 0 by decide
  have hmap : ∀ bn, bn * bsize < 16 * (k + 2) + 16 → (ks.store sb).fileBlock rootIno bn ≠ 0 :=
    fun bn hbn => (hroot.mapped bn).mpr (by omega)
  have hent : (entries args)[k + 2]? = some (k + 2, a.shortname) := by
    rw [entries_add_two, ha]
    rfl
  obtain ⟨hinum, hname⟩ := hroot.ent hn hent
  have hlow : ∀ m < k + 2, NotNamed ((ks.store sb).content rootIno) a.shortname m := by
    intro m hm _
    have hm' : m < (entries args).length := by
      rw [length_entries]
      omega
    have he := List.getElem?_eq_getElem hm'
    rw [(hroot.ent hn he).2]
    exact hnames.cstr_ne ha he hm
  obtain ⟨ip, ks₁, d, hrun, hb₁, hx₁⟩ := namei_root hq (show 1 < 200 by decide) howned
    hroot.type_eq hlink (hnames.ne_nil a hmem) (fun hs => hslash (a.shortname_sublist.mem hs))
    (hnames.length_le a hmem) hmap (by omega) (by rw [hinum]; exact Nat.succ_ne_zero _)
    (by rw [hinum]; exact show k + 2 ≠ 1 by omega) hname hlow
  rw [hinum] at hx₁
  have hstore₁ : ks₁.store sb = ks.store sb := by rw [Fs.State.store, Fs.State.store, hb₁]
  have hlt : k + 2 < sb.ninodes := show k + 2 < ninodes by omega
  have hlock := ilock_load (t := t) hx₁ hlt (hstore₁ ▸ hfile.type_ne')
  refine ⟨ip, ks₁, _, hrun, hlock, hb₁.trans hblocks, ?_, ?_⟩
  · rw [Fs.State.setInode_self]
  · rw [Fs.State.setInode_self, hstore₁]

/-- **`readi`** of a whole file. -/
theorem FileAt.readi {x : Node} {ip : Slot} (h : FileAt (ks.store sb) i x)
    (ho : (ks.store sb).Owned sb) (hlt : i < sb.ninodes) (hi : (ks.itable ip).inum = i)
    (hd : (ks.itable ip).din = (ks.store sb).din i) :
    Fs.readi sb t ip (fun _ _ => true) 0 (ks.itable ip).din.size.toNat ks =
      .ok (((x.bytes.length : ℤ), x.bytes), ks) := by
  have heff := Fs.State.eff_of_loaded hi hd
  have hf : (ks.eff sb ip).HoleFreeAt (ks.itable ip).inum := by
    rw [heff, hi]
    exact h.holeFreeAt
  rw [readi_kernel (.of_loaded hi hd hlt h.type_ne' ho) hf (Nat.zero_add _).le, heff, hi, hd,
    h.size]
  have hbytes : (List.range x.bytes.length).map (fun p => (ks.store sb).content i (0 + p)) =
      x.bytes := by
    refine List.ext_getElem (by simp) fun p hp hp' => ?_
    rw [List.getElem_map, List.getElem_range, Nat.zero_add, h.content, List.getD_eq_getElem _ _ hp']
  rw [hbytes]

/-- **`mkfs` and the kernel agree.** For files with distinct names that fit: `mkfs` builds an
image, unless a file cannot be opened or its name has a slash; the kernel reads the superblock, the
laws of block ownership and of link counts hold, and the kernel finds every file by its name and
reads its bytes. -/
theorem mkfs_kernel_agree (args : List Arg) (hnames : Names args)
    (hsize : ∀ a ∈ args, a.bytes.length ≤ maxFile * bsize) (hinodes : args.length + 1 < ninodes)
    (hblocks : nmeta + need args ≤ fssize) :
    ((∀ a ∈ args, slash ∉ a.base ∧ a.file ≠ none) →
      ∃ s, main args State.start = .ok ((), s)) ∧
    ∀ s, main args State.start = .ok ((), s) →
      readsb (s.sect 1) = some sb ∧ (Store.of sb s.sect).Owned sb ∧
      (Store.of sb s.sect).LinkCounts ∧
      ∀ a ∈ args, ∀ (t : τ) (ks : Fs.State τ), ks.Quiet → ks.blocks = s.sect →
        ∃ ip ks₁ ks₂, (Fs.namei sb (slash :: a.shortname)).solo t ks = some (some ip, ks₁) ∧
          (ilock sb ip).solo t ks₁ = some ((), ks₂) ∧
          (ks₂.itable ip).din.type = tFile ∧
          (ks₂.itable ip).din.size.toNat = a.bytes.length ∧
          Fs.readi sb t ip (fun _ _ => true) 0 (ks₂.itable ip).din.size.toNat ks₂ =
            .ok (((a.bytes.length : ℤ), a.bytes), ks₂) := by
  refine ⟨fun hgood => ?_, fun s hrun => ?_⟩
  · have hfits : Fits args := ⟨fun a ha => ⟨(hgood a ha).1, (hgood a ha).2,
      hnames.length_le a ha, hsize a ha⟩, hblocks⟩
    obtain ⟨s, hrun, -⟩ := main_of_fits (by decide) hinodes hfits
    exact ⟨s, hrun⟩
  · have himg : Image ninodes args s := main_spec (by decide) hinodes hrun
    refine ⟨by rw [himg.super, readsb_superBlock], himg.owned, himg.linkCounts hinodes hnames,
      fun a ha t ks hq hks => ?_⟩
    obtain ⟨k, hk⟩ := List.mem_iff_getElem?.mp ha
    obtain ⟨ip, ks₁, ks₂, hnamei, hlock, hb, hi, hd⟩ :=
      himg.namei hinodes hnames hk (slash_of_main hrun a ha) hq hks
    have hstore : Store.of sb s.sect = ks₂.store sb := by rw [Fs.State.store, hb]
    have hfile : FileAt (Store.of sb s.sect) (k + 2) ⟨tFile, a.bytes⟩ := himg.file k a hk
    have howned : (Store.of sb s.sect).Owned sb := himg.owned
    have hlt : k + 2 < sb.ninodes := by
      have := (List.getElem?_eq_some_iff.mp hk).1
      show k + 2 < ninodes
      omega
    rw [hstore] at hfile howned hd
    refine ⟨ip, ks₁, ks₂, hnamei, hlock, ?_, ?_, hfile.readi howned hlt hi hd⟩
    · rw [hd, hfile.din]
    · rw [hd, hfile.size]

theorem mkfs_kernel_agree_three : ∃ s, main [threeBytes] State.start = .ok ((), s) ∧
    ∀ ks : Fs.State Unit, ks.Quiet → ks.blocks = s.sect →
      ∃ ip ks₁ ks₂, (Fs.namei sb [slash, 97]).solo () ks = some (some ip, ks₁) ∧
        (ilock sb ip).solo () ks₁ = some ((), ks₂) ∧
        Fs.readi sb () ip (fun _ _ => true) 0 (ks₂.itable ip).din.size.toNat ks₂ =
          .ok ((3, [1, 2, 3]), ks₂) := by
  have hnames : Names [threeBytes] := by
    refine ⟨List.nodup_singleton _, ?_, ?_, ?_, ?_⟩ <;> decide
  obtain ⟨hex, hall⟩ := @mkfs_kernel_agree Unit _ [threeBytes] hnames (by decide) (by decide)
    (by decide)
  obtain ⟨s, hrun⟩ := hex (by decide)
  obtain ⟨-, -, -, hfiles⟩ := hall s hrun
  refine ⟨s, hrun, fun ks hq hks => ?_⟩
  obtain ⟨ip, ks₁, ks₂, hnamei, hlock, -, -, hread⟩ :=
    hfiles threeBytes (List.mem_singleton_self _) () ks hq hks
  exact ⟨ip, ks₁, ks₂, hnamei, hlock, hread⟩

end Kernel

end Mkfs

end TrinityXv6
