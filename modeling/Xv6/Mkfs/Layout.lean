import Xv6.Lib.Rows
import Xv6.Mkfs.Model

/-! Where the files are in the image. The references of an inode are its `NDIRECT` addresses,
the address of its indirect block, and the words of that block, in this order, which is the
order in which `iappend` fills them; so the references of all inodes are rows that are filled
with the blocks from `nmeta` on. A file whose references are filled and whose bytes are in
these blocks is read by the kernel as it was written. -/

namespace Xv6.Mkfs

open Format Segments Words Rows Function

/-! ### References -/

/-- Reference `k` of an inode, 0 if there is none. -/
def ref (img : Img) (d : Dinode) (k : Nat) : Nat :=
  if h : k < NDIRECT + 1 then d.addrs ⟨k, h⟩
  else if k < MAXFILE + 1 ∧ d.addrs (Fin.last NDIRECT) ≠ 0 then
    uint (img (d.addrs (Fin.last NDIRECT))) (k - (NDIRECT + 1))
  else 0

/-- The reference to block `fbn` of a file. -/
def slot (fbn : Nat) : Nat := if fbn < NDIRECT then fbn else fbn + 1

/-- The number of blocks that a file of `n` bytes takes, with the indirect block. -/
def blocksFor (n : Nat) : Nat :=
  let nb := (n + BSIZE - 1) / BSIZE
  if nb ≤ NDIRECT then nb else nb + 1

variable {img img' : Img} {d d' : Dinode} {k n i b : Nat}

theorem ref_direct (h : k < NDIRECT + 1) : ref img d k = d.addrs ⟨k, h⟩ := dif_pos h

theorem ref_last : ref img d NDIRECT = d.addrs (Fin.last NDIRECT) := ref_direct (Nat.lt_succ_self _)

theorem ref_indirect (h : NDIRECT < k) (hk : k < MAXFILE + 1) (h0 : ref img d NDIRECT ≠ 0) :
    ref img d k = uint (img (ref img d NDIRECT)) (k - (NDIRECT + 1)) := by
  rw [ref_last] at h0 ⊢
  rw [ref, dif_neg (by omega), if_pos ⟨hk, h0⟩]

theorem ref_of_no_indirect (h : NDIRECT < k) (h0 : ref img d NDIRECT = 0) : ref img d k = 0 := by
  rw [ref_last] at h0
  rw [ref, dif_neg (by omega), if_neg (by simp [h0])]

theorem ref_of_large (h : MAXFILE < k) : ref img d k = 0 := by
  rw [ref, dif_neg (by simp only [MAXFILE] at h; omega), if_neg (by omega)]

/-- The references depend on the addresses and the indirect block. -/
theorem ref_congr (haddrs : d'.addrs = d.addrs)
    (hblock : ref img d NDIRECT ≠ 0 → img' (ref img d NDIRECT) = img (ref img d NDIRECT))
    (k : Nat) : ref img' d' k = ref img d k := by
  rw [ref_last] at hblock
  rw [ref, ref, haddrs]
  split
  · rfl
  · split
    · rename_i h
      rw [hblock h.2]
    · rfl

theorem bmap_eq_ref (h : n < MAXFILE) :
    bmap img d n = if ref img d (slot n) = 0 then .error .balloc else .ok (ref img d (slot n)) := by
  by_cases hn : n < NDIRECT
  · have hslot : slot n = n := if_pos hn
    rw [bmap, dif_pos hn, hslot, ref_direct (Nat.lt_succ_of_lt hn)]
  · have hslot : slot n = n + 1 := if_neg hn
    have hind : n - NDIRECT < NINDIRECT := by
      simp only [MAXFILE] at h
      omega
    rw [bmap, dif_neg hn, if_pos hind, hslot]
    by_cases h0 : d.addrs (Fin.last NDIRECT) = 0
    · rw [if_pos h0, ref_of_no_indirect (by omega) (by rw [ref_last, h0]), if_pos rfl]
    · rw [if_neg h0, ref_indirect (by omega) (by omega) (by rwa [ref_last]), ref_last,
        Nat.add_sub_add_right]

/-! ### Blocks of a file -/

theorem slot_eq (n : Nat) : n < 12 ∧ slot n = n ∨ 12 ≤ n ∧ slot n = n + 1 := by
  by_cases h : n < NDIRECT
  · exact .inl ⟨h, if_pos h⟩
  · exact .inr ⟨Nat.le_of_not_lt h, if_neg h⟩

theorem blocksFor_eq (n : Nat) : n ≤ 12 * 512 ∧ blocksFor n = (n + 511) / 512 ∨
    12 * 512 < n ∧ blocksFor n = (n + 511) / 512 + 1 := by
  by_cases h : (n + BSIZE - 1) / BSIZE ≤ NDIRECT
  · refine .inl ⟨?_, if_pos h⟩
    simp only [BSIZE, NDIRECT] at h
    omega
  · refine .inr ⟨?_, if_neg h⟩
    simp only [BSIZE, NDIRECT] at h
    omega

theorem slot_ne_indirect (n : Nat) : slot n ≠ NDIRECT := by
  have := slot_eq n
  simp only [NDIRECT]
  omega

theorem slot_inj {m : Nat} (h : slot m = slot n) : m = n := by
  have := slot_eq m
  have := slot_eq n
  omega

theorem slot_lt_blocksFor (h : i < n) : slot (i / BSIZE) < blocksFor n := by
  have := slot_eq (i / BSIZE)
  have := blocksFor_eq n
  simp only [BSIZE] at *
  omega

theorem blocksFor_mono {m : Nat} (h : m ≤ n) : blocksFor m ≤ blocksFor n := by
  have := blocksFor_eq m
  have := blocksFor_eq n
  omega

/-- `iappend` needs the blocks up to the one it writes to. -/
theorem blocksFor_add {m : Nat} (hm : 0 < m) (h : n + m ≤ (n / BSIZE + 1) * BSIZE) :
    blocksFor (n + m) = slot (n / BSIZE) + 1 := by
  have := slot_eq (n / BSIZE)
  have := blocksFor_eq (n + m)
  simp only [BSIZE] at *
  omega

/-- What is filled of the row before that. -/
theorem blocksFor_cases (n : Nat) :
    blocksFor n = slot (n / BSIZE) + 1 ∨ blocksFor n = slot (n / BSIZE) ∨
      n / BSIZE = NDIRECT ∧ blocksFor n = NDIRECT := by
  have := slot_eq (n / BSIZE)
  have := blocksFor_eq n
  simp only [BSIZE, NDIRECT] at *
  omega

/-! ### The layout -/

/-- The inodes below `N`, with `dins` as their `struct dinode`s, have the contents `c`; `u` says
how many references each of them has, and the blocks from `fb` on are free. -/
structure Layout (img : Img) (dins : Nat → Dinode) (c : Nat → List Byte) (u : Nat → Nat)
    (N fb : Nat) : Prop where
  rows : Filled (fun j k => ref img (dins j) k) u N nmeta fb
  covers : ∀ j < N, blocksFor (c j).length ≤ u j
  data : ∀ j < N, ∀ i (hi : i < (c j).length),
    img (ref img (dins j) (slot (i / BSIZE))) (i % BSIZE) = (c j)[i]
  fresh : ∀ b, fb ≤ b → ∀ i, img b i = 0

variable {dins dins' : Nat → Dinode} {c : Nat → List Byte} {u : Nat → Nat} {N fb j : Nat}

/-- The block of a byte. -/
theorem Layout.ref_data (h : Layout img dins c u N fb) (hj : j < N) (hi : i < (c j).length) :
    ref img (dins j) (slot (i / BSIZE)) ≠ 0 :=
  (h.rows.cell j hj _).2 (Nat.lt_of_lt_of_le (slot_lt_blocksFor hi) (h.covers j hj))

/-- The data blocks are those from `nmeta` on; what is written before them does not matter. -/
theorem Layout.outside (h : Layout img dins c u N fb)
    (himg : ∀ b, nmeta ≤ b → img' b = img b) (hdins : ∀ j < N, (dins' j).addrs = (dins j).addrs) :
    Layout img' dins' c u N fb := by
  have href : ∀ j < N, ∀ k, ref img' (dins' j) k = ref img (dins j) k := by
    intro j hj k
    exact ref_congr (hdins j hj) (fun h0 => himg _ (h.rows.range j hj _ h0).1) k
  refine ⟨h.rows.congr href, h.covers, ?_, ?_⟩
  · intro j hj i hi
    rw [href j hj, himg _ (h.rows.range j hj _ (h.ref_data hj hi)).1]
    exact h.data j hj i hi
  · intro b hb i
    rw [himg b (h.rows.le.trans hb)]
    exact h.fresh b hb i

theorem Layout.newInode (h : Layout img dins c u N fb) (hdin : ∀ i, (dins' N).addrs i = 0)
    (himg : ∀ b, nmeta ≤ b → img' b = img b) (hdins : ∀ j < N, (dins' j).addrs = (dins j).addrs)
    (hc : c N = []) : Layout img' dins' c (update u N 0) (N + 1) fb := by
  have hold := h.outside himg hdins
  have hzero : ∀ k, ref img' (dins' N) k = 0 := by
    intro k
    rw [ref]
    split
    · exact hdin _
    · rw [if_neg (by simp [hdin])]
  refine ⟨hold.rows.row hzero fun _ _ _ => rfl, ?_, ?_, hold.fresh⟩
  · intro j hj
    by_cases hjN : j = N
    · rw [hjN, hc]
      exact Nat.zero_le _
    · rw [update_of_ne hjN]
      exact hold.covers j (by omega)
  · intro j hj i hi
    have hjN : j ≠ N := by
      rintro rfl
      simp [hc] at hi
    exact hold.data j (by omega) i hi

/-- How the references change when reference `u j` of inode `j` is filled with block `fb`. -/
structure Takes (img img' : Img) (dins dins' : Nat → Dinode) (u : Nat → Nat) (N fb j : Nat) :
    Prop where
  new : ref img' (dins' j) (u j) = fb
  old : ∀ a < N, ∀ k, (a ≠ j ∨ k ≠ u j) → ref img' (dins' a) k = ref img (dins a) k
  /-- Only an indirect block is written to. -/
  blocks : ∀ b, img' b ≠ img b → b < fb ∧ b = ref img (dins j) NDIRECT ∧ b ≠ 0

section

variable (h : Layout img dins c u N fb)

include h

theorem Layout.take (hj : j < N) (ht : Takes img img' dins dins' u N fb j) :
    Layout img' dins' c (update u j (u j + 1)) N (fb + 1) := by
  refine ⟨h.rows.push hj ht.new ht.old, ?_, ?_, ?_⟩
  · intro a ha
    refine (h.covers a ha).trans ?_
    by_cases haj : a = j
    · rw [haj, update_self]
      omega
    · rw [update_of_ne haj]
  · intro a ha i hi
    have hused : slot (i / BSIZE) < u a := Nat.lt_of_lt_of_le (slot_lt_blocksFor hi) (h.covers a ha)
    have hne : a ≠ j ∨ slot (i / BSIZE) ≠ u j := by
      by_cases haj : a = j
      · subst haj
        exact .inr hused.ne
      · exact .inl haj
    have hblock : img' (ref img (dins a) (slot (i / BSIZE))) =
        img (ref img (dins a) (slot (i / BSIZE))) := by
      by_contra hb
      obtain ⟨-, heq, -⟩ := ht.blocks _ hb
      have := h.rows.distinct a ha j hj _ _ (h.ref_data ha hi) heq
      exact slot_ne_indirect _ this.2
    rw [ht.old a ha _ hne, hblock]
    exact h.data a ha i hi
  · intro b hb i
    have hsame : img' b = img b := by
      by_contra hne
      have := (ht.blocks b hne).1
      omega
    rw [hsame]
    exact h.fresh b (by omega) i

theorem Layout.takes_addr (hj : j < N) (hu : u j < NDIRECT + 1)
    (haddrs : (dins' j).addrs = update (dins j).addrs ⟨u j, hu⟩ fb)
    (hother : ∀ a, a ≠ j → dins' a = dins a) : Takes img img dins dins' u N fb j := by
  refine ⟨?_, ?_, fun b hb => absurd rfl hb⟩
  · rw [ref_direct hu, haddrs, update_self]
  · intro a ha k hne
    by_cases haj : a = j
    swap
    · rw [hother a haj]
    subst haj
    have hk : k ≠ u a := hne.resolve_left (fun hne => hne rfl)
    have hcell : ∀ i : Fin (NDIRECT + 1), (i : Nat) ≠ u a →
        (dins' a).addrs i = (dins a).addrs i := by
      intro i hi
      rw [haddrs, update_of_ne fun he => hi (by rw [he])]
    by_cases hdirect : k < NDIRECT + 1
    · rw [ref_direct hdirect, ref_direct hdirect]
      exact hcell _ hk
    · by_cases hlast : u a = NDIRECT
      · -- the new block is the indirect block, and it is empty
        have hold : ref img (dins a) k = 0 := by
          by_contra h0
          have := (h.rows.cell a ha k).1 h0
          omega
        have hnew : ref img (dins' a) NDIRECT = fb := by
          rw [ref_last, haddrs, show Fin.last NDIRECT = ⟨u a, hu⟩ from Fin.ext hlast.symm,
            update_self]
        rw [hold]
        by_cases hlarge : k < MAXFILE + 1
        · have hpos : fb ≠ 0 := (Nat.lt_of_lt_of_le h.rows.pos h.rows.le).ne'
          rw [ref_indirect (by omega) hlarge (by rwa [hnew]), hnew, uint]
          exact word_of_zero fun i _ => h.fresh fb le_rfl _
        · exact ref_of_large (by omega)
      · have hsame : (dins' a).addrs (Fin.last NDIRECT) = (dins a).addrs (Fin.last NDIRECT) :=
          hcell _ (Ne.symm hlast)
        rw [ref, ref, dif_neg hdirect, dif_neg hdirect, hsame]

theorem Layout.takes_entry (hj : j < N) (hu : NDIRECT < u j)
    (hu' : u j < MAXFILE + 1) (hfb : fb < 2 ^ 32)
    (himg : img' = update img (ref img (dins j) NDIRECT)
      (put (img (ref img (dins j) NDIRECT)) (4 * (u j - (NDIRECT + 1))) (bytes 4 fb))) :
    Takes img img' dins dins u N fb j := by
  have hind : ref img (dins j) NDIRECT ≠ 0 := (h.rows.cell j hj _).2 hu
  have hlast : ∀ a, ref img' (dins a) NDIRECT = ref img (dins a) NDIRECT := fun a => by
    rw [ref_last, ref_last]
  have hblock : img' (ref img (dins j) NDIRECT) =
      put (img (ref img (dins j) NDIRECT)) (4 * (u j - (NDIRECT + 1))) (bytes 4 fb) := by
    rw [himg, update_self]
  refine ⟨?_, ?_, ?_⟩
  · rw [ref_indirect hu hu' (by rwa [hlast]), hlast, hblock, uint]
    exact word_put_self hfb
  · intro a ha k hne
    by_cases hdirect : k < NDIRECT + 1
    · rw [ref_direct hdirect, ref_direct hdirect]
    by_cases hlarge : k < MAXFILE + 1
    swap
    · rw [ref_of_large (by omega), ref_of_large (by omega)]
    by_cases h0 : ref img (dins a) NDIRECT = 0
    · rw [ref_of_no_indirect (by omega) (by rwa [hlast]), ref_of_no_indirect (by omega) h0]
    rw [ref_indirect (by omega) hlarge (by rwa [hlast]), ref_indirect (by omega) hlarge h0, hlast]
    by_cases haj : a = j
    · subst haj
      have hk : k ≠ u a := hne.resolve_left (fun hne => hne rfl)
      rw [hblock, uint, uint]
      refine word_put_outside ?_
      rw [bytes_length]
      omega
    · have hother : ref img (dins a) NDIRECT ≠ ref img (dins j) NDIRECT := fun he =>
        haj (h.rows.distinct a ha j hj _ _ h0 he).1
      rw [himg, update_of_ne hother]
  · intro b hb
    have hbj : b = ref img (dins j) NDIRECT := by
      by_contra hne
      exact hb (by rw [himg, update_of_ne hne])
    refine ⟨?_, hbj, hbj ▸ hind⟩
    rw [hbj]
    exact (h.rows.range j hj _ hind).2

/-- Bytes are written behind the end of a file, in one block. -/
theorem Layout.write (hj : j < N) {p : List Byte}
    (hp : (c j).length + p.length ≤ ((c j).length / BSIZE + 1) * BSIZE)
    (hslot : slot ((c j).length / BSIZE) < u j)
    (hcovers : blocksFor ((c j).length + p.length) ≤ u j)
    (himg : img' = update img (ref img (dins j) (slot ((c j).length / BSIZE)))
      (put (img (ref img (dins j) (slot ((c j).length / BSIZE)))) ((c j).length % BSIZE) p)) :
    Layout img' dins (update c j (c j ++ p)) u N fb := by
  have hx : ref img (dins j) (slot ((c j).length / BSIZE)) ≠ 0 := (h.rows.cell j hj _).2 hslot
  have hdiv := Nat.div_add_mod (c j).length BSIZE
  have href : ∀ a < N, ∀ k, ref img' (dins a) k = ref img (dins a) k := by
    intro a ha
    refine ref_congr rfl fun h0 => ?_
    have hne : ref img (dins a) NDIRECT ≠ ref img (dins j) (slot ((c j).length / BSIZE)) := by
      intro he
      exact slot_ne_indirect _ (h.rows.distinct a ha j hj _ _ h0 he).2.symm
    rw [himg, update_of_ne hne]
  refine ⟨h.rows.congr href, ?_, ?_, ?_⟩
  · intro a ha
    by_cases haj : a = j
    · rw [haj, update_self, List.length_append]
      exact hcovers
    · rw [update_of_ne haj]
      exact h.covers a ha
  · intro a ha i hi
    rw [href a ha]
    by_cases haj : a = j
    swap
    · have hi' : i < (c a).length := by rwa [update_of_ne haj] at hi
      have hne : ref img (dins a) (slot (i / BSIZE)) ≠
          ref img (dins j) (slot ((c j).length / BSIZE)) := fun he =>
        haj (h.rows.distinct a ha j hj _ _ (h.ref_data ha hi') he).1
      simp only [update_of_ne haj]
      rw [himg, update_of_ne hne]
      exact h.data a ha i hi'
    subst haj
    simp only [update_self]
    have hlen : i < (c a).length + p.length := by
      rwa [update_self, List.length_append] at hi
    by_cases hold : i < (c a).length
    · rw [List.getElem_append_left hold]
      by_cases hsame : i / BSIZE = (c a).length / BSIZE
      · have hlt : i % BSIZE < (c a).length % BSIZE := by
          have := Nat.div_add_mod i BSIZE
          rw [hsame] at this
          omega
        rw [himg, hsame, update_self, put_of_lt hlt, ← hsame]
        exact h.data a ha i hold
      · have hne : ref img (dins a) (slot (i / BSIZE)) ≠
            ref img (dins a) (slot ((c a).length / BSIZE)) := fun he =>
          hsame (slot_inj (h.rows.distinct a ha a ha _ _ (h.ref_data ha hold) he).2)
        rw [himg, update_of_ne hne]
        exact h.data a ha i hold
    · have hsame : i / BSIZE = (c a).length / BSIZE := by
        simp only [BSIZE] at *
        omega
      have hmod : i % BSIZE = (c a).length % BSIZE + (i - (c a).length) := by
        have := Nat.div_add_mod i BSIZE
        rw [hsame] at this
        omega
      rw [himg, hsame, update_self, hmod, put_inside (by omega),
        List.getElem_append_right (by omega)]
  · intro b hb i
    have hne : b ≠ ref img (dins j) (slot ((c j).length / BSIZE)) := by
      have := (h.rows.range j hj _ hx).2
      omega
    rw [himg, update_of_ne hne]
    exact h.fresh b hb i

end

/-! ### Reading -/

theorem Layout.readiLoop (h : Layout img dins c u N fb) (hj : j < N)
    (hsmall : (c j).length ≤ MAXFILE * BSIZE) (off n : Nat) (hn : off + n ≤ (c j).length)
    (haddrs : d.addrs = (dins j).addrs) :
    readiLoop img d off n = .ok (((c j).drop off).take n) := by
  induction n using Nat.strong_induction_on generalizing off with
  | _ n ih =>
    rw [Format.readiLoop]
    by_cases h0 : n = 0
    · rw [if_pos h0, h0, List.take_zero]
    rw [if_neg h0]
    have hoff : off < (c j).length := by omega
    have href : ∀ k, ref img d k = ref img (dins j) k := ref_congr haddrs fun _ => rfl
    have hblock : off / BSIZE < MAXFILE := by
      rw [Nat.div_lt_iff_lt_mul (by decide)]
      omega
    have hbmap : bmap img d (off / BSIZE) = .ok (ref img (dins j) (slot (off / BSIZE))) := by
      rw [bmap_eq_ref hblock, href, if_neg (h.ref_data hj hoff)]
    have hmod := Nat.mod_lt off (show 0 < BSIZE by decide)
    have hdiv := Nat.div_add_mod off BSIZE
    simp only [hbmap]
    generalize hm : min n (BSIZE - off % BSIZE) = m
    have hget : get (img (ref img (dins j) (slot (off / BSIZE)))) (off % BSIZE) m =
        ((c j).drop off).take m := by
      refine List.ext_getElem (by simp; omega) fun i hi _ => ?_
      have hi : i < m := by simpa using hi
      have hsame : (off + i) / BSIZE = off / BSIZE := by
        simp only [BSIZE] at *
        omega
      have hmod' : (off + i) % BSIZE = off % BSIZE + i := by
        simp only [BSIZE] at *
        omega
      have hdata := h.data j hj (off + i) (by omega)
      rw [hsame, hmod'] at hdata
      simpa [Segments.get] using hdata
    rw [ih (n - m) (by omega) (off + m) (by omega), hget]
    simp only [Except.map]
    congr 1
    rw [← List.drop_drop, ← List.take_add]
    congr 1
    omega

end Xv6.Mkfs
