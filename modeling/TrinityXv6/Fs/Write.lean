import TrinityXv6.Fs.Files
import TrinityXv6.Fs.Syscall

/-!
# A long write

`filewrite` cuts a write into chunks, each in an operation of its own, and advances the offset of
the open file by what each `writei` reports. Run without interference, it leaves the file as one
`writei` of all bytes would, whatever the chunks and wherever the write stops.

The argument is one lemma: a write after a write is a write, if it starts where the first one
ended. `WroteBytes` says the same of one `writei` and of a whole `filewrite`, so the loop is an
induction with that lemma.

## Main definitions

* `Opened` — an open file whose inode nobody has locked
* `Advanced` — the same file further on, with bytes written in between
* `filewriteReports` — the loop of `filewrite`, with the results of its calls of `writei`

## Main results

* `WroteBytes.append` — a write after a write
* `filewriteOne_solo`, `filewriteReports_solo` — one chunk, and the loop
* `filewrite_chunks` — the whole call
-/

namespace TrinityXv6

namespace Fs

open Threads Command
open Prog
open Function (update update_eq_self update_of_ne update_self)

variable {τ : Type} {sb : Superblock} {t : τ} {f : FileId} {ip : Slot} {i : ℕ} {s s' : State τ}

/-! ## Writes in a row -/

namespace WroteBytes

variable {src : Source} {off n m r : ℕ} {S S' S'' : Store}

/-- A write of nothing. -/
theorem refl (h : off ≤ S.size i) (src : Source) (n : ℕ) : WroteBytes src i off n 0 S S where
  size := by omega
  inside p hp := absurd hp (Nat.not_lt_zero p)
  outside _ _ := rfl
  known p hp := .inl ⟨hp, rfl⟩
  other _ _ := ⟨rfl, fun _ => rfl⟩

/-- Part of a longer write. -/
theorem mono (h : WroteBytes src i off n r S S') (hn : n ≤ m) : WroteBytes src i off m r S S' :=
  { h with
    outside := fun p hp => h.outside p (by omega)
    known := fun p hp => (h.known p hp).imp id fun ⟨h₁, h₂, h₃⟩ => ⟨h₁, by omega, h₃⟩ }

/-- **A write after a write**, from where the first one ended. -/
theorem append (h : WroteBytes src i off m m S S')
    (h' : WroteBytes (src.drop m) i (off + m) n r S' S'') :
    WroteBytes src i off (m + n) (m + r) S S'' where
  size := by
    rw [h'.size, h.size]
    omega
  inside p hp := by
    by_cases hpm : p < m
    · rw [h'.outside _ (by omega), h.inside p hpm]
    · have hbyte := h'.inside (p - m) (by omega)
      rw [show off + m + (p - m) = off + p by omega] at hbyte
      rw [hbyte]
      exact congrArg src.data (by omega)
  outside p hp := by rw [h'.outside p (by omega), h.outside p (by omega)]
  known p hp := by
    rcases h'.known p hp with ⟨hlt, heq⟩ | ⟨hlo, hhi, heq⟩
    · rcases h.known p hlt with ⟨hlt', heq'⟩ | ⟨hlo, hhi, heq'⟩
      · exact .inl ⟨hlt', heq.trans heq'⟩
      · exact .inr ⟨hlo, by omega, heq.trans heq'⟩
    · refine .inr ⟨by omega, by omega, heq.trans ?_⟩
      exact congrArg src.data (by omega)
  other j hj := by
    obtain ⟨hs, hc⟩ := h.other j hj
    obtain ⟨hs', hc'⟩ := h'.other j hj
    exact ⟨hs'.trans hs, fun p => (hc' p).trans (hc p)⟩

/-- Two complete writes of the same bytes leave the same files. -/
theorem complete_unique (h : WroteBytes src i off n n S S') (h' : WroteBytes src i off n n S S'')
    (j : ℕ) : S''.size j = S'.size j ∧ ∀ p, S''.content j p = S'.content j p := by
  by_cases hj : j = i
  · subst hj
    refine ⟨h'.size.trans h.size.symm, fun p => ?_⟩
    by_cases hp : off ≤ p ∧ p < off + n
    · have hin := h.inside (p - off) (by omega)
      have hin' := h'.inside (p - off) (by omega)
      rw [Nat.add_sub_of_le hp.1] at hin hin'
      rw [hin, hin']
    · rw [h.outside p (by omega), h'.outside p (by omega)]
  · obtain ⟨hs, hc⟩ := h.other j hj
    obtain ⟨hs', hc'⟩ := h'.other j hj
    exact ⟨hs'.trans hs.symm, fun p => (hc' p).trans (hc p).symm⟩

end WroteBytes

/-! ## Sources -/

theorem Source.drop_zero (src : Source) : src.drop 0 = src := by
  simp [Source.drop]

theorem Source.drop_drop (src : Source) (a b : ℕ) : (src.drop a).drop b = src.drop (a + b) := by
  simp [Source.drop, Nat.add_assoc]

/-! ## Consistent states -/

namespace Consistent

theorem of_eq (h : Consistent sb s) (hb : s'.blocks = s.blocks) (hi : s'.itable = s.itable) :
    Consistent sb s' := by
  have hst : s'.store sb = s.store sb := congrArg (Store.of sb) hb
  refine ⟨?_, ?_, ?_, ?_, ?_, ?_⟩
  · rw [hst]; exact h.owned
  · rw [hst]; exact h.holeFree
  · rw [hi]; exact h.inum_lt
  · rw [hi]; exact h.unique
  · rw [hst, hi]; exact h.din_eq
  · rw [hi]; exact h.type_ne

/-- An inode in memory changes, but not which inode it is. -/
theorem setInode (h : Consistent sb s) {x : Inode τ} (hnum : x.inum = (s.itable ip).inum)
    (href : x.ref = (s.itable ip).ref)
    (hx : x.valid = true → x.din = (s.store sb).din x.inum ∧ x.din.type ≠ 0) :
    Consistent sb (s.setInode ip x) := by
  have hself : (s.setInode ip x).itable ip = x := update_self ..
  have hother : ∀ j, j ≠ ip → (s.setInode ip x).itable j = s.itable j := fun j hj =>
    update_of_ne hj ..
  have hnum' : ∀ j, ((s.setInode ip x).itable j).inum = (s.itable j).inum :=
    view_update Inode.inum hnum
  have href' : ∀ j, ((s.setInode ip x).itable j).ref = (s.itable j).ref :=
    view_update Inode.ref href
  refine ⟨h.owned, h.holeFree, fun j hj => ?_, fun j k hj hk hjk => ?_, fun j hj hv => ?_,
    fun j hj hv => ?_⟩
  · rw [hnum']
    exact h.inum_lt j (by rwa [href'] at hj)
  · rw [hnum', hnum'] at hjk
    exact h.unique j k (by rwa [href'] at hj) (by rwa [href'] at hk) hjk
  · by_cases hjp : j = ip
    · rw [hjp, hself] at hv ⊢
      exact (hx hv).1
    · rw [href'] at hj
      rw [hother j hjp] at hv ⊢
      exact h.din_eq j hj hv
  · by_cases hjp : j = ip
    · rw [hjp, hself] at hv ⊢
      exact (hx hv).2
    · rw [href'] at hj
      rw [hother j hjp] at hv ⊢
      exact h.type_ne j hj hv

end Consistent

/-- File `f` is open on inode `i`, at place `ip` of the table, with an offset the file has, and
nobody holds the lock of the inode. -/
structure Opened (sb : Superblock) (f : FileId) (ip : Slot) (i : ℕ) (s : State τ) : Prop where
  consistent : Consistent sb s
  type : (s.ftable f).type = .inode
  place : (s.ftable f).ip = ip
  ref : 0 < (s.itable ip).ref
  inum : (s.itable ip).inum = i
  free : (s.itable ip).lock = none
  alloc : ((s.store sb).din i).type ≠ 0
  off_le : (s.ftable f).off.toNat ≤ (s.store sb).size i

/-- The open file of the small file system. -/
theorem Small.opened (t : τ) : Opened Small.super Small.fd Small.slot 2 (Small.state t) where
  consistent := Small.consistent t
  type := rfl
  place := rfl
  ref := by
    rw [Small.itable_slot]
    exact Nat.one_pos
  inum := rfl
  free := rfl
  alloc := by
    rw [Small.store_eq, Small.din_eq]
    decide
  off_le := Nat.zero_le _

/-- What a chunk leaves: the file is open as it was, further on. -/
structure Advanced (sb : Superblock) (f : FileId) (ip : Slot) (i : ℕ) (src : Source) (n k : ℕ)
    (s s' : State τ) : Prop where
  opened : Opened sb f ip i s'
  wrote : WroteBytes src i (s.ftable f).off.toNat n k (s.store sb) (s'.store sb)
  off_eq : (s'.ftable f).off.toNat = (s.ftable f).off.toNat + k
  file : s'.ftable = update s.ftable f { s.ftable f with off := (s'.ftable f).off }

namespace Advanced

variable {src : Source} {n m k : ℕ} {s'' : State τ}

theorem refl (h : Opened sb f ip i s) (src : Source) (n : ℕ) : Advanced sb f ip i src n 0 s s :=
  ⟨h, .refl h.off_le src n, rfl, (update_eq_self f s.ftable).symm⟩

theorem mono (h : Advanced sb f ip i src n k s s') (hn : n ≤ m) : Advanced sb f ip i src m k s s' :=
  { h with wrote := h.wrote.mono hn }

theorem append (h : Advanced sb f ip i src m m s s')
    (h' : Advanced sb f ip i (src.drop m) n k s' s'') :
    Advanced sb f ip i src (m + n) (m + k) s s'' where
  opened := h'.opened
  wrote := h.wrote.append (by rw [← h.off_eq]; exact h'.wrote)
  off_eq := by
    rw [h'.off_eq, h.off_eq, Nat.add_assoc]
  file := by
    rw [h'.file, h.file]
    simp

end Advanced

/-! ## One chunk -/

/-- Taking the lock, with the inode read from the disk if need be. -/
theorem ilock_solo (h : Opened sb f ip i s) : ∃ x : Inode τ,
    (ilock sb ip : M τ Unit).solo t s = some ((), s.setInode ip x) ∧ x.inum = i ∧
      x.ref = (s.itable ip).ref ∧ x.valid = true ∧ x.lock = some t ∧
      x.din = (s.store sb).din i := by
  have href : ¬ (s.itable ip).ref < 1 := by
    have := h.ref
    omega
  cases hv : (s.itable ip).valid with
  | true =>
    refine ⟨{ s.itable ip with lock := some t }, solo_atomic (w := []) ?_, h.inum, rfl, hv,
      rfl, ?_⟩
    · simp only [if_neg href, h.free, hv]
      rfl
    · rw [← h.inum]
      exact h.consistent.din_eq ip h.ref hv
  | false =>
    have hlt : i < sb.ninodes := by
      rw [← h.inum]
      exact h.consistent.inum_lt ip h.ref
    have hd : getDinode (s.blocks (sb.iblock (s.itable ip).inum)) ((s.itable ip).inum % ipb) =
        (s.store sb).din i := by
      rw [h.inum, State.store, Store.of_din hlt]
    refine ⟨{ s.itable ip with lock := some t, valid := true, din := (s.store sb).din i },
      solo_atomic (w := []) ?_, h.inum, rfl, rfl, rfl, rfl⟩
    simp only [if_neg href, h.free, hv, hd, if_neg h.alloc]
    rfl

section Calls

variable [DecidableEq τ]

/-- What a chunk does under the lock of the inode. -/
theorem filewriteLocked_run (hsb : sb.Sane) (hc : Consistent sb s) (href : 0 < (s.itable ip).ref)
    (hv : (s.itable ip).valid = true) (hop : s.ops ≠ [])
    (hoff : (s.ftable f).off.toNat ≤ (s.store sb).size (s.itable ip).inum) (src : Source) (n : ℕ) :
    ∃ (r : ℤ) (k : ℕ) (s' : State τ), filewriteLocked sb t f ip src n s = .ok (r, s') ∧
      (r = k ∨ r = -1 ∧ k = 0) ∧ k ≤ n ∧ Consistent sb s' ∧
      WroteBytes src (s.itable ip).inum (s.ftable f).off.toNat n k (s.store sb) (s'.store sb) ∧
      (∀ j, s'.itable j = { s.itable j with din := (s'.itable j).din }) ∧
      (s'.ftable f).off.toNat = (s.ftable f).off.toNat + k ∧
      s'.ftable = update s.ftable f { s.ftable f with off := (s'.ftable f).off } := by
  set off := (s.ftable f).off with hoffdef
  have hsame : s.ftable = update s.ftable f { s.ftable f with off := off } := by
    rw [hoffdef]
    exact (update_eq_self f s.ftable).symm
  have hspec : Ends (writei sb t ip src off.toNat n s) _ fun _ => False :=
    writei_spec hsb hop (hc.editable href hv) (hc.holeFreeAt href hv) src off.toNat n
  cases hrun : writei sb t ip src off.toNat n s with
  | error e => exact (hspec.error hrun).elim
  | ok x =>
    obtain ⟨r, s₁⟩ := x
    have hstart : filewriteLocked sb t f ip src n s = _ := bind_of_ok hrun
    obtain ⟨rfl, rfl, -⟩ | ⟨k, lost, rfl, hle, -, -, hmax, hW⟩ := hspec.ok hrun
    · rw [if_neg (by decide)] at hstart
      exact ⟨-1, 0, s₁, hstart, .inr ⟨rfl, rfl⟩, Nat.zero_le n, hc, .refl hoff src n, fun _ => rfl,
        rfl, hsame⟩
    · have hc₁ := hW.consistent hc href hv
      have hbytes := hW.bytes hc href hv hoff hle
      by_cases hk : 0 < (k : ℤ)
      · rw [if_pos hk] at hstart
        refine ⟨k, k, _, hstart, .inl rfl, by omega, hc₁.of_eq rfl rfl, hbytes, hW.frame.inode, ?_,
          ?_⟩
        · have hval : (UInt32.ofNat k).toNat = k := by
            rw [UInt32.toNat_ofNat']
            exact Nat.mod_eq_of_lt (by have := maxFile_lt; omega)
          show (update s₁.ftable f { s₁.ftable f with
            off := (s₁.ftable f).off + UInt32.ofNat ((k : ℤ).toNat) } f).off.toNat = _
          rw [update_self, hW.frame.ftable, Int.toNat_natCast]
          show (off + UInt32.ofNat k).toNat = _
          rw [UInt32.toNat_add, hval]
          exact Nat.mod_eq_of_lt (by have := maxFile_lt; omega)
        · simp [State.setFile, hW.frame.ftable]
      · obtain rfl : k = 0 := by omega
        rw [if_neg hk] at hstart
        refine ⟨(0 : ℕ), 0, s₁, hstart, .inl rfl, Nat.zero_le n, hc₁, hbytes, hW.frame.inode, ?_,
          ?_⟩
        · rw [hW.frame.ftable, Nat.add_zero]
        · rw [hW.frame.ftable]
          exact hsame

/-- **One chunk**, run alone. -/
theorem filewriteOne_solo (hsb : sb.Sane) (h : Opened sb f ip i s) (src : Source) (n : ℕ) :
    ∃ (r : ℤ) (k : ℕ) (s' : State τ), (filewriteOne sb f ip src n).solo t s = some (r, s') ∧
      (r = k ∨ r = -1 ∧ k = 0) ∧ k ≤ n ∧ Advanced sb f ip i src n k s s' := by
  -- `begin_op`
  set s₁ : State τ := { s with ops := (t, []) :: s.ops } with hs₁
  have h₁ : Opened sb f ip i s₁ :=
    ⟨h.consistent.of_eq rfl rfl, h.type, h.place, h.ref, h.inum, h.free, h.alloc, h.off_le⟩
  have hbegin : (beginOp : M τ Unit).solo t s = some ((), s₁) := solo_cmd rfl
  -- `ilock`
  obtain ⟨x, hlock, hnum, href, hvalid, hheld, hdin⟩ := ilock_solo (t := t) h₁
  set s₂ := s₁.setInode ip x with hs₂
  have hself : s₂.itable ip = x := update_self ..
  have hc₂ : Consistent sb s₂ := by
    refine h₁.consistent.setInode (hnum.trans h₁.inum.symm) href fun _ => ?_
    rw [hnum, hdin]
    exact ⟨rfl, h₁.alloc⟩
  -- the body
  have href₂ : 0 < (s₂.itable ip).ref := by
    rw [hself, href]
    exact h.ref
  obtain ⟨r, k, s₃, hrun, hr, hk, hc₃, hbytes, hinode, hoff, hfile⟩ :=
    filewriteLocked_run hsb hc₂ href₂ (by rw [hself]; exact hvalid)
      (List.cons_ne_nil _ _) (by rw [hself, hnum]; exact h.off_le) src n
  rw [hself, hnum] at hbytes
  have hbody : (.cmd fun t => filewriteLocked sb t f ip src n : M τ ℤ).solo t s₂ = some (r, s₃) :=
    solo_cmd hrun
  -- `iunlock`
  have hx₃ : s₃.itable ip = { x with din := (s₃.itable ip).din } := by
    rw [← hself]
    exact hinode ip
  set y : Inode τ := { s₃.itable ip with lock := none } with hy
  set s₄ := s₃.setInode ip y with hs₄
  have hunlock : (iunlock ip : M τ Unit).solo t s₃ = some ((), s₄) := by
    refine solo_atomic (w := [.inode ip]) (if_neg ?_)
    rw [hx₃]
    have := h₁.ref
    simp only [hheld, href, ne_eq, not_true, false_or]
    omega
  have href₃ : 0 < (s₃.itable ip).ref := by
    rw [hx₃]
    rw [href]
    exact h.ref
  have hc₄ : Consistent sb s₄ := hc₃.setInode rfl rfl fun hv =>
    ⟨hc₃.din_eq ip href₃ hv, hc₃.type_ne ip href₃ hv⟩
  have hy₄ : s₄.itable ip = y := update_self ..
  -- `end_op`
  set s₅ : State τ := { s₄ with ops := s₄.ops.filter (·.1 ≠ t) } with hs₅
  have hend : (endOp : M τ Unit).solo t s₄ = some ((), s₅) := solo_cmd rfl
  have hinum₃ : (s₃.itable ip).inum = i := by
    rw [hx₃]
    exact hnum
  refine ⟨r, k, s₅, ?_, hr, hk, ⟨⟨hc₄.of_eq rfl rfl, ?_, ?_, ?_, ?_, ?_, ?_, ?_⟩, hbytes, hoff,
    hfile⟩⟩
  · rw [filewriteOne, solo_bind_of_solo hbegin, solo_bind_of_solo hlock,
      solo_bind_of_solo hbody, solo_bind_of_solo hunlock, solo_bind_of_solo hend]
    rfl
  · show (s₃.ftable f).type = .inode
    rw [hfile, update_self]
    exact h.type
  · show (s₃.ftable f).ip = ip
    rw [hfile, update_self]
    exact h.place
  · rw [hy₄]
    exact href₃
  · rw [hy₄]
    exact hinum₃
  · rw [hy₄]
  · have hv₃ : (s₃.itable ip).valid = true := by
      rw [hx₃]
      exact hvalid
    have htype := hc₃.type_ne ip href₃ hv₃
    rw [hc₃.din_eq ip href₃ hv₃, hinum₃] at htype
    exact htype
  · show (s₃.ftable f).off.toNat ≤ (s₃.store sb).size i
    rw [hoff, hbytes.size]
    exact le_max_right ..

/-! ## The loop -/

/-- The loop of `filewrite`, with what its calls of `writei` report. -/
def filewriteReports (sb : Superblock) (f : FileId) (ip : Slot) (src : Source) (n : ℕ) :
    (fuel i : ℕ) → M τ (ℕ × List ℤ)
  | 0, i => pure (i, [])
  | fuel + 1, i =>
    if i < n then do
      let n1 := min (n - i) filewriteMax
      let r ← filewriteOne sb f ip (src.drop i) n1
      if r = n1 then do
        let x ← filewriteReports sb f ip src n fuel (i + n1)
        pure (x.1, r :: x.2)
      else pure (i, [r])
    else pure (i, [])

/-- The number of bytes reported as written. -/
def reported (rs : List ℤ) : ℕ := (rs.map Int.toNat).sum

/-- The reports are those of the loop. -/
theorem filewriteFrom_eq (src : Source) (n fuel j : ℕ) :
    (filewriteFrom sb f ip src n fuel j : M τ ℕ) =
      filewriteReports sb f ip src n fuel j >>= fun x => pure x.1 := by
  induction fuel generalizing j with
  | zero => rfl
  | succ fuel ih =>
    by_cases hj : j < n
    · simp only [filewriteFrom, filewriteReports, if_pos hj, bind_assoc]
      congr 1
      funext r
      split_ifs with hr
      · rw [ih, bind_assoc]
        rfl
      · rfl
    · simp only [filewriteFrom, filewriteReports, if_neg hj]
      rfl

/-- **The loop**, run alone. -/
theorem filewriteReports_solo (hsb : sb.Sane) (src : Source) {n fuel j : ℕ} (hj : j ≤ n)
    (hfuel : n - j ≤ fuel) (h : Opened sb f ip i s) : ∃ (j' k : ℕ) (rs : List ℤ) (s' : State τ),
      (filewriteReports sb f ip src n fuel j).solo t s = some ((j', rs), s') ∧
      reported rs = k ∧ k ≤ n - j ∧ (j' = n ↔ k = n - j) ∧
      Advanced sb f ip i (src.drop j) (n - j) k s s' := by
  induction fuel generalizing j s with
  | zero =>
    exact ⟨j, 0, [], s, rfl, rfl, Nat.zero_le _, by omega, .refl h _ _⟩
  | succ fuel ih =>
    by_cases hlt : j < n
    · simp only [filewriteReports, if_pos hlt]
      set n1 := min (n - j) filewriteMax with hn1
      have hpos : 0 < n1 := by
        have : 0 < filewriteMax := by decide
        omega
      have hle : n1 ≤ n - j := min_le_left ..
      obtain ⟨r, k, s₁, hone, hr, hk, hadv⟩ :=
        filewriteOne_solo hsb h (src.drop j) n1
      rw [solo_bind_of_solo hone]
      by_cases hfull : r = n1
      · -- a complete chunk
        obtain rfl : k = n1 := by omega
        rw [if_pos hfull]
        obtain ⟨j', k', rs, s₂, hrest, hsum, hk', hiff, hadv'⟩ :=
          ih (j := j + n1) (by omega) (by omega) hadv.opened
        rw [solo_bind_of_solo hrest]
        have hdrop : (src.drop j).drop n1 = src.drop (j + n1) := Source.drop_drop ..
        rw [← hdrop] at hadv'
        refine ⟨j', n1 + k', r :: rs, s₂, rfl, ?_, by omega, by omega, ?_⟩
        · rw [reported, List.map_cons, List.sum_cons, ← hsum, hfull, Int.toNat_natCast]
          rfl
        · have happ := hadv.append hadv'
          rwa [show n1 + (n - (j + n1)) = n - j by omega] at happ
      · rw [if_neg hfull]
        refine ⟨j, k, [r], s₁, rfl, ?_, by omega, by omega, hadv.mono hle⟩
        rcases hr with rfl | ⟨rfl, rfl⟩ <;> simp [reported]
    · simp only [filewriteReports, if_neg hlt]
      exact ⟨j, 0, [], s, rfl, rfl, Nat.zero_le _, by omega, .refl h _ _⟩

/-- **A long write is one write.** Run alone on a file open for writing, at an offset the file has,
`filewrite` ends. It returns `n` if all bytes were written and `-1` otherwise, and the bytes its
calls of `writei` reported are in the file, at the old offset; the size covers them and the offset
is behind them. If all were written, the files and the open files are what one operation with one
`writei` of all bytes leaves. -/
theorem filewrite_chunks (hsb : sb.Sane) (h : Opened sb f ip i s)
    (hw : (s.ftable f).writable = true) (src : Source) (n : ℕ) (dev : Option ℤ) :
    ∃ (j k : ℕ) (rs : List ℤ) (s' : State τ),
      (filewriteReports sb f ip src n n 0).solo t s = some ((j, rs), s') ∧
      (filewrite sb f src n dev).solo t s = some (if k = n then (n : ℤ) else -1, s') ∧
      reported rs = k ∧ k ≤ n ∧ Advanced sb f ip i src n k s s' ∧
      (k = n → ∀ s₁, (filewriteOne sb f ip src n).solo t s = some ((n : ℤ), s₁) →
        s₁.ftable = s'.ftable ∧
        ∀ m, (s₁.store sb).size m = (s'.store sb).size m ∧
          ∀ p, (s₁.store sb).content m p = (s'.store sb).content m p) := by
  obtain ⟨j, k, rs, s', hloop, hsum, hk, hiff, hadv⟩ :=
    filewriteReports_solo hsb src (Nat.zero_le n) (Nat.le_refl _) h
  rw [Source.drop_zero, Nat.sub_zero] at hadv
  rw [Nat.sub_zero] at hloop hk hiff
  refine ⟨j, k, rs, s', hloop, ?_, hsum, hk, hadv, fun hkn s₁ hone => ?_⟩
  · have hfile : (file f : M τ File).solo t s = some (s.ftable f, s) := solo_cmd rfl
    rw [filewrite, solo_bind_of_solo hfile, if_neg (by simp [hw]), h.type, h.place]
    have hfrom : (filewriteFrom sb f ip src n n 0 : M τ ℕ).solo t s = some (j, s') := by
      rw [filewriteFrom_eq, solo_bind_of_solo hloop]
      rfl
    show (filewriteFrom sb f ip src n n 0 >>= _ : M τ ℤ).solo t s = _
    rw [solo_bind_of_solo hfrom]
    simp only [Int.toNat_natCast, hiff]
    rfl
  · obtain ⟨r, k₁, s₁', hone', hr, -, hadv₁⟩ := filewriteOne_solo hsb h src n
    obtain ⟨rfl, rfl⟩ : (n : ℤ) = r ∧ s₁ = s₁' := by
      rw [hone] at hone'
      simpa using hone'
    obtain rfl : k₁ = n := by omega
    obtain rfl : k = k₁ := hkn
    refine ⟨?_, hadv.wrote.complete_unique hadv₁.wrote⟩
    have hoff : (s₁.ftable f).off = (s'.ftable f).off :=
      UInt32.toNat_inj.mp (hadv₁.off_eq.trans hadv.off_eq.symm)
    rw [hadv₁.file, hadv.file, hoff]

/-- A write of 5000 bytes, in two chunks, while another process has begun an operation. -/
theorem filewrite_chunks_small :
    ∃ s' : State Bool,
      (filewrite Small.super Small.fd (.kernel fun _ => 1) (5000 : ℕ) none).solo false
        (Small.state true) = some (5000, s') ∧
      (filewriteReports Small.super Small.fd Small.slot (.kernel fun _ => 1) 5000 5000 0).solo false
        (Small.state true) = some ((5000, [3072, 1928]), s') ∧
      Advanced Small.super Small.fd Small.slot 2 (.kernel fun _ => 1) 5000 5000 (Small.state true)
        s' := by
  have hret : ((filewriteReports Small.super Small.fd Small.slot (.kernel fun _ => 1) 5000 5000
      0).solo false (Small.state true)).map Prod.fst = some (5000, [3072, 1928]) := by
    decide +kernel
  obtain ⟨j, k, rs, s', hloop, hrun, hsum, -, hadv, -⟩ :=
    filewrite_chunks Small.sane (Small.opened true) rfl (.kernel fun _ => 1) 5000 none
  rw [hloop] at hret
  obtain ⟨rfl, rfl⟩ := Prod.mk.inj (Option.some.inj hret)
  obtain rfl : 5000 = k := hsum
  exact ⟨s', hrun, hloop, hadv⟩

end Calls

end Fs

end TrinityXv6
