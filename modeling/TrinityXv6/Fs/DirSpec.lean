import Mathlib.Data.List.GetD
import Mathlib.Data.List.TakeWhile
import Mathlib.Data.Set.Card
import TrinityXv6.Fs.Syscall
import TrinityXv6.Fs.FileSpec

/-!
# What the directory code does

A directory is a finite table of entries, `Store.dirEnt`. Looking a name up changes nothing but the
inode table: `dirlookup` finds the first entry with the name, and reads no block after it.
-/

namespace TrinityXv6

namespace Fs

open Threads Command
open List

/-! ## Entries -/

/-- The bytes of entry `k`. -/
def entBytes (c : ℕ → UInt8) (k : ℕ) : List UInt8 :=
  (List.range 16).map fun p => c (16 * k + p)

/-- The inode number of entry `k`. -/
def entInum (c : ℕ → UInt8) (k : ℕ) : ℕ := direntInum (entBytes c k)

/-- The name of entry `k`, without its padding. -/
def entName (c : ℕ → UInt8) (k : ℕ) : List UInt8 := cstr (direntName (entBytes c k))

/-- Entry `k` of directory `i`: an inode number and a name, if it is in use. -/
def Store.dirEnt (S : Store) (i k : ℕ) : Option (ℕ × List UInt8) :=
  if 16 * k + 16 ≤ (S.din i).size.toNat ∧ entInum (S.content i) k ≠ 0 then
    some (entInum (S.content i) k, entName (S.content i) k)
  else none

/-- The places of the entries that refer to an inode, except those with the name `"."`. The
entries of a directory that has been removed do not count. -/
def Store.linksTo (S : Store) (i : ℕ) : Set (ℕ × ℕ) :=
  {e | (S.din e.1).type = tDir ∧ 0 < (S.din e.1).nlink ∧
    ∃ name, name ≠ dot ∧ S.dirEnt e.1 e.2 = some (i, name)}

/-- **The link law**: `nlink` is the number of entries. -/
def Store.LinkCounts (S : Store) : Prop :=
  ∀ i, (S.din i).type ≠ 0 →
    ∃ n : ℕ, (S.linksTo i).encard = n ∧ (S.din i).nlink.toInt = n

variable {name : List UInt8} {fuel i k : ℕ} {c : ℕ → UInt8}

theorem direntInum_bytes (f : ℕ → UInt8) :
    direntInum ((List.range 16).map f) = (f 0).toNat + 256 * (f 1).toNat := rfl

theorem direntName_bytes (f : ℕ → UInt8) :
    direntName ((List.range 16).map f) = (List.range dirSiz).map fun p => f (2 + p) := rfl

/-- Padding a name with zeros does not change it. -/
theorem cstr_pad (name : List UInt8) :
    cstr ((List.range dirSiz).map fun p => (cstr name).getD p 0) = cstr name := by
  have hlen : (cstr name).length ≤ dirSiz := by
    exact (takeWhile_sublist _).length_le.trans (length_take_le ..)
  have hne : ∀ x ∈ cstr name, x ≠ 0 := fun x hx => by
    simpa using mem_takeWhile_imp hx
  have hpad : (List.range dirSiz).map (fun p => (cstr name).getD p 0) =
      cstr name ++ List.replicate (dirSiz - (cstr name).length) 0 := by
    refine ext_getElem (by simp; omega) fun p hp hp' => ?_
    rw [getElem_map, getElem_range]
    by_cases hlt : p < (cstr name).length
    · rw [getElem_append_left hlt, getD_eq_getElem _ _ hlt]
    · rw [getElem_append_right (not_lt.mp hlt), getElem_replicate,
        getD_eq_default _ _ (not_lt.mp hlt)]
  rw [hpad]
  generalize cstr name = l at hlen hne
  rw [cstr, take_of_length_le (by simp; omega)]
  rw [takeWhile_append_of_pos (by simpa using hne)]
  cases dirSiz - l.length with
  | zero => simp
  | succ n => simp [replicate_succ]

theorem entInum_direntBytes (h : ∀ p < 16, c (16 * k + p) = direntBytes i name p) :
    entInum c k = i % 65536 := by
  have hb : entBytes c k = (List.range 16).map (direntBytes i name) :=
    map_congr_left fun p hp => h p (mem_range.mp hp)
  rw [entInum, hb, direntInum_bytes]
  show (UInt8.ofNat (i / 256 ^ 0)).toNat + 256 * (UInt8.ofNat (i / 256 ^ 1)).toNat = _
  rw [UInt8.toNat_ofNat', UInt8.toNat_ofNat']
  norm_num
  omega

theorem entName_direntBytes (h : ∀ p < 16, c (16 * k + p) = direntBytes i name p) :
    entName c k = cstr name := by
  have hb : entBytes c k = (List.range 16).map (direntBytes i name) :=
    map_congr_left fun p hp => h p (mem_range.mp hp)
  rw [entName, hb, direntName_bytes]
  have : (fun p => direntBytes i name (2 + p)) = fun p => (cstr name).getD p 0 := funext fun p => by
    rw [direntBytes, if_neg (by omega), Nat.add_sub_cancel_left]
  rw [this, cstr_pad]

theorem entInum_zero (h : ∀ p < 16, c (16 * k + p) = 0) : entInum c k = 0 := by
  have hb : entBytes c k = (List.range 16).map fun _ => 0 :=
    map_congr_left fun p hp => h p (mem_range.mp hp)
  rw [entInum, hb]
  rfl

variable {τ : Type} {sb : Superblock} {t : τ} {ip dp : Slot} {s s' : State τ} {E : Halt → Prop}

/-! ## Reading a directory -/

variable [DecidableEq τ]

theorem readDirent_mapped (he : Editable sb s dp) (e : Halt)
    (hmap : ∀ bn, bn * bsize < 16 * k + 16 → (s.eff sb dp).fileBlock (s.itable dp).inum bn ≠ 0)
    (hk : 16 * k + 16 ≤ (s.itable dp).din.size.toNat) : readDirent sb t e dp (16 * k) s =
      .ok (entBytes ((s.eff sb dp).content (s.itable dp).inum) k, s) := by
  rw [readDirent, bind_of_ok (readi_mapped he hmap hk), if_pos rfl]
  rfl

/-- Entry `k` of the directory does not have a given name. -/
def NotNamed (c : ℕ → UInt8) (name : List UInt8) (k : ℕ) : Prop :=
  entInum c k ≠ 0 → entName c k ≠ cstr name

/-- The loop of `dirlookup` on its way to an entry with the name. Blocks after that entry are not
read. -/
theorem dirlookupFrom_found (he : Editable sb s dp) {m : ℕ}
    (hmap : ∀ bn, bn * bsize < 16 * m + 16 → (s.eff sb dp).fileBlock (s.itable dp).inum bn ≠ 0)
    (hm : 16 * m + 16 ≤ (s.itable dp).din.size.toNat)
    (hlive : entInum ((s.eff sb dp).content (s.itable dp).inum) m ≠ 0)
    (hname : entName ((s.eff sb dp).content (s.itable dp).inum) m = cstr name)
    (hlow : ∀ m' < m, NotNamed ((s.eff sb dp).content (s.itable dp).inum) name m') (hk : k ≤ m)
    (hfuel : m < k + fuel) : dirlookupFrom sb t dp name fuel (16 * k) s =
      (iget (entInum ((s.eff sb dp).content (s.itable dp).inum) m) >>= fun ip =>
        pure (some (ip, 16 * m))) s := by
  induction fuel generalizing k with
  | zero => omega
  | succ fuel ih =>
    have hread : readDirent sb t .dirlookupRead dp (16 * k) s =
        .ok (entBytes ((s.eff sb dp).content (s.itable dp).inum) k, s) :=
      readDirent_mapped he _ (fun bn hbn => hmap bn (by omega)) (by omega)
    rw [dirlookupFrom, inode_bind, if_pos (by omega), bind_of_ok hread]
    by_cases hkm : k = m
    · subst hkm
      have hcmp : namecmp name
          (direntName (entBytes ((s.eff sb dp).content (s.itable dp).inum) k)) = true := by
        simpa [namecmp, entName, eq_comm] using hname
      rw [if_neg (show ¬ direntInum _ = 0 from hlive), if_pos hcmp]
      rfl
    · have hnext := ih (k := k + 1) (by omega) (by omega)
      by_cases h0 : direntInum (entBytes ((s.eff sb dp).content (s.itable dp).inum) k) = 0
      · rw [if_pos h0]
        exact hnext
      · have hcmp : ¬ namecmp name
            (direntName (entBytes ((s.eff sb dp).content (s.itable dp).inum) k)) = true := by
          intro h
          refine hlow k (by omega) h0 ?_
          simpa [namecmp, entName, eq_comm] using h
        rw [if_neg h0, if_neg hcmp]
        exact hnext

/-- **`dirlookup`** of a name that an entry has. -/
theorem dirlookup_found (he : Editable sb s dp) {m : ℕ} (ht : (s.itable dp).din.type = tDir)
    (hmap : ∀ bn, bn * bsize < 16 * m + 16 → (s.eff sb dp).fileBlock (s.itable dp).inum bn ≠ 0)
    (hm : 16 * m + 16 ≤ (s.itable dp).din.size.toNat)
    (hlive : entInum ((s.eff sb dp).content (s.itable dp).inum) m ≠ 0)
    (hname : entName ((s.eff sb dp).content (s.itable dp).inum) m = cstr name)
    (hlow : ∀ m' < m, NotNamed ((s.eff sb dp).content (s.itable dp).inum) name m') :
    dirlookup sb t dp name s =
      (iget (entInum ((s.eff sb dp).content (s.itable dp).inum) m) >>= fun ip =>
        pure (some (ip, 16 * m))) s := by
  rw [dirlookup, inode_bind, if_pos ht]
  refine dirlookupFrom_found he hmap hm hlive hname hlow (Nat.zero_le m) ?_
  show m < 0 + ((s.itable dp).din.size.toNat / 16 + 1)
  omega

end Fs

end TrinityXv6
