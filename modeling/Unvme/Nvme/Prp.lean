import Mathlib.Data.Nat.Notation
import Mathlib.Data.List.Range
import Mathlib.Tactic.Linarith

set_option autoImplicit false

/-! # Reading PRP entries

How a controller finds the bytes of a transfer. PRP entry 1 covers the bytes from its offset to the end
of its page. If one more page is needed PRP entry 2 is the base of that page, and if more are needed it
is the address of a list of page bases. `prpBytes` gives the DMA addresses of the transfer in order, and
nothing if an entry cannot be read or is not a page base. -/

namespace Unvme.Nvme

/-- The number of pages a transfer of `len` bytes at address `prp1` touches. -/
def pagesTouched (ps prp1 len : ℕ) : ℕ := (prp1 % ps + len + (ps - 1)) / ps

/-- `n` entries of the list at address `a`. -/
def readList (list : ℕ → Option ℕ) : ℕ → ℕ → Option (List ℕ)
  | _, 0 => some []
  | a, n + 1 => do
      let e ← list a
      let es ← readList list (a + 8) n
      pure (e :: es)

/-- The entries of the `n` pages after the first. -/
def furtherPages (prp2 : ℕ) (list : ℕ → Option ℕ) (n : ℕ) : Option (List ℕ) :=
  if n = 0 then some [] else if n = 1 then some [prp2] else readList list prp2 n

/-- The first `len` bytes of these pages. -/
def pageBytes (ps : ℕ) : List ℕ → ℕ → List ℕ
  | [], _ => []
  | p :: pages, len => List.range' p (min len ps) ++ pageBytes ps pages (len - ps)

/-- The DMA addresses of a transfer of `len` bytes. -/
def prpBytes (ps prp1 prp2 : ℕ) (list : ℕ → Option ℕ) (len : ℕ) : Option (List ℕ) := do
  let pages ← furtherPages prp2 list (pagesTouched ps prp1 len - 1)
  if pages.all (fun p => p % ps == 0) then
    let first := ps - prp1 % ps
    pure (List.range' prp1 (min len first) ++ pageBytes ps pages (len - first))
  else none

/-- The entries of a list that fit into the page of `prp2`. The list does not go on beyond it. -/
def listPage (ps prp2 : ℕ) (list : ℕ → Option ℕ) (a : ℕ) : Option ℕ :=
  if a + 8 ≤ (prp2 / ps + 1) * ps then list a else none

/-! ## Two lists -/

section

variable {ps prp1 prp2 len : ℕ} {list list' : ℕ → Option ℕ}

theorem readList_mono (h : ∀ a v, list a = some v → list' a = some v) (n : ℕ) {a : ℕ} {es : List ℕ}
    (hr : readList list a n = some es) : readList list' a n = some es := by
  induction n generalizing a es with
  | zero => exact hr
  | succ n ih =>
      simp only [readList, Option.bind_eq_bind, Option.bind_eq_some_iff] at hr ⊢
      obtain ⟨e, he, es', hes, hpure⟩ := hr
      exact ⟨e, h a e he, es', ih hes, hpure⟩

/-- A list that can be read in part is read the same in full. -/
theorem furtherPages_mono (h : ∀ a v, list a = some v → list' a = some v) {n : ℕ} {pages : List ℕ}
    (hp : furtherPages prp2 list n = some pages) : furtherPages prp2 list' n = some pages := by
  unfold furtherPages at hp ⊢
  split
  · next h0 => rwa [if_pos h0] at hp
  · next h0 =>
      rw [if_neg h0] at hp
      split
      · next h1 => rwa [if_pos h1] at hp
      · next h1 =>
          rw [if_neg h1] at hp
          exact readList_mono h n hp

theorem prpBytes_mono (h : ∀ a v, list a = some v → list' a = some v) {bytes : List ℕ}
    (hb : prpBytes ps prp1 prp2 list len = some bytes) : prpBytes ps prp1 prp2 list' len = some bytes := by
  simp only [prpBytes, Option.bind_eq_bind, Option.bind_eq_some_iff] at hb ⊢
  obtain ⟨pages, hpages, hrest⟩ := hb
  exact ⟨pages, furtherPages_mono h hpages, hrest⟩

theorem readList_congr (n : ℕ) {a : ℕ} (h : ∀ i < n, list (a + 8 * i) = list' (a + 8 * i)) :
    readList list a n = readList list' a n := by
  induction n generalizing a with
  | zero => rfl
  | succ n ih =>
      have hfirst : list a = list' a := h 0 (Nat.succ_pos n)
      have hrest : readList list (a + 8) n = readList list' (a + 8) n := by
        refine ih (fun i hi => ?_)
        have hi' := h (i + 1) (Nat.succ_lt_succ hi)
        rwa [Nat.mul_succ, Nat.add_comm (8 * i), ← Nat.add_assoc] at hi'
      rw [readList, readList, hfirst, hrest]

/-- Only the entries that are needed are read. -/
theorem prpBytes_congr (h : 2 < pagesTouched ps prp1 len →
      ∀ i < pagesTouched ps prp1 len - 1, list (prp2 + 8 * i) = list' (prp2 + 8 * i)) :
    prpBytes ps prp1 prp2 list len = prpBytes ps prp1 prp2 list' len := by
  have hpages : furtherPages prp2 list (pagesTouched ps prp1 len - 1)
      = furtherPages prp2 list' (pagesTouched ps prp1 len - 1) := by
    unfold furtherPages
    by_cases h2 : 2 < pagesTouched ps prp1 len
    · rw [if_neg (by omega), if_neg (by omega), if_neg (by omega), if_neg (by omega),
        readList_congr _ (h h2)]
    · split
      · rfl
      · rw [if_pos (by omega), if_pos (by omega)]
  unfold prpBytes
  rw [hpages]

/-- All entries of a list that was read are there. -/
theorem readList_get (n : ℕ) {a : ℕ} {es : List ℕ} (h : readList list a n = some es) :
    ∀ i < n, ∃ e ∈ es, list (a + 8 * i) = some e := by
  induction n generalizing a es with
  | zero => exact fun i hi => absurd hi (Nat.not_lt_zero i)
  | succ n ih =>
      simp only [readList, Option.bind_eq_bind, Option.bind_eq_some_iff] at h
      obtain ⟨e, he, es', hes, hpure⟩ := h
      obtain rfl := Option.some.inj hpure
      intro i hi
      cases i with
      | zero => exact ⟨e, List.mem_cons_self, he⟩
      | succ i =>
          obtain ⟨e', hmem, he'⟩ := ih hes i (Nat.lt_of_succ_lt_succ hi)
          refine ⟨e', List.mem_cons_of_mem _ hmem, ?_⟩
          rwa [Nat.mul_succ, Nat.add_comm (8 * i), ← Nat.add_assoc]

/-- The entries that a transfer was read from are page bases. -/
theorem prpBytes_pages {bytes : List ℕ} (h : prpBytes ps prp1 prp2 list len = some bytes) :
    ∃ pages, furtherPages prp2 list (pagesTouched ps prp1 len - 1) = some pages ∧
      ∀ p ∈ pages, p % ps = 0 := by
  simp only [prpBytes, Option.bind_eq_bind, Option.bind_eq_some_iff] at h
  obtain ⟨pages, hpages, hrest⟩ := h
  split at hrest
  · next hall =>
      refine ⟨pages, hpages, fun p hp => ?_⟩
      exact beq_iff_eq.1 (List.all_eq_true.1 hall p hp)
  · cases hrest

theorem listPage_some {a v : ℕ} (h : listPage ps prp2 list a = some v) : list a = some v := by
  unfold listPage at h
  split at h
  · exact h
  · cases h

/-- The entries up to `n` are in the page. -/
theorem listPage_add {n i : ℕ} (h : prp2 % ps + 8 * n ≤ ps) (hi : i < n) :
    listPage ps prp2 list (prp2 + 8 * i) = list (prp2 + 8 * i) := by
  have hpage : (prp2 / ps + 1) * ps = prp2 / ps * ps + ps := Nat.succ_mul _ _
  have hdiv : prp2 / ps * ps + prp2 % ps = prp2 := Nat.div_add_mod' prp2 ps
  unfold listPage
  rw [hpage, if_pos]
  omega

theorem listPage_fits {n v : ℕ} (h : listPage ps prp2 list (prp2 + 8 * n) = some v) :
    prp2 % ps + 8 * (n + 1) ≤ ps := by
  have hpage : (prp2 / ps + 1) * ps = prp2 / ps * ps + ps := Nat.succ_mul _ _
  have hdiv : prp2 / ps * ps + prp2 % ps = prp2 := Nat.div_add_mod' prp2 ps
  unfold listPage at h
  rw [hpage] at h
  split at h
  · omega
  · cases h

end

/-! ## Consecutive pages -/

/-- A list of consecutive addresses is read as such. -/
theorem readList_range' {list : ℕ → Option ℕ} {ps : ℕ} (n : ℕ) {a b : ℕ}
    (h : ∀ i < n, list (a + 8 * i) = some (b + i * ps)) :
    readList list a n = some (List.range' b n ps) := by
  induction n generalizing a b with
  | zero => rfl
  | succ n ih =>
      have hfirst : list a = some b := by
        have := h 0 (by omega)
        simpa using this
      have hrest : readList list (a + 8) n = some (List.range' (b + ps) n ps) := by
        apply ih
        intro i hi
        have := h (i + 1) (by omega)
        rw [Nat.add_mul, Nat.one_mul] at this
        rw [Nat.add_assoc, Nat.add_comm 8, ← Nat.mul_succ, this, Nat.add_assoc b, Nat.add_comm ps]
      simp only [readList, hfirst, hrest, List.range'_succ, Option.bind_eq_bind, Option.bind_some]
      rfl

/-- The bytes of consecutive pages are consecutive. -/
theorem pageBytes_range' {ps : ℕ} (n : ℕ) {a len : ℕ} (h : len ≤ n * ps) :
    pageBytes ps (List.range' a n ps) len = List.range' a len := by
  induction n generalizing a len with
  | zero =>
      have : len = 0 := by omega
      subst this
      rfl
  | succ n ih =>
      rw [Nat.succ_mul] at h
      rw [List.range'_succ, pageBytes, ih (by omega)]
      by_cases hle : len ≤ ps
      · rw [Nat.min_eq_left hle, Nat.sub_eq_zero_of_le hle]
        simp
      · have hlen : len = ps + (len - ps) := by omega
        rw [Nat.min_eq_right (by omega)]
        conv_rhs => rw [hlen]
        have happ := @List.range'_append a ps (len - ps) 1
        rw [Nat.one_mul] at happ
        exact happ

theorem pagesTouched_le_one {ps prp1 len : ℕ} (hps : 0 < ps) (h : prp1 % ps + len ≤ ps) :
    pagesTouched ps prp1 len ≤ 1 := by
  unfold pagesTouched
  rw [Nat.lt_succ_iff.symm, Nat.div_lt_iff_lt_mul hps]
  omega

/-- One page is enough: PRP entry 2 is not read. -/
theorem prpBytes_one {ps prp1 prp2 len : ℕ} {list : ℕ → Option ℕ} (hps : 0 < ps)
    (h : prp1 % ps + len ≤ ps) : prpBytes ps prp1 prp2 list len = some (List.range' prp1 len) := by
  have hnone : pagesTouched ps prp1 len - 1 = 0 := by
    have := pagesTouched_le_one hps h
    omega
  have hle : len ≤ ps - prp1 % ps := by omega
  simp only [prpBytes, furtherPages, hnone, if_true, Option.bind_eq_bind, Option.bind_some]
  simp [Nat.min_eq_left hle, pageBytes]

/-- A transfer that starts on a page: the entries that are read have to be the following pages. -/
theorem prpBytes_aligned {ps prp1 prp2 len : ℕ} {list : ℕ → Option ℕ} (hps : 0 < ps)
    (halign : prp1 % ps = 0)
    (hpages : furtherPages prp2 list (pagesTouched ps prp1 len - 1)
      = some (List.range' (prp1 + ps) (pagesTouched ps prp1 len - 1) ps)) :
    prpBytes ps prp1 prp2 list len = some (List.range' prp1 len) := by
  have hall : (List.range' (prp1 + ps) (pagesTouched ps prp1 len - 1) ps).all
      (fun p => p % ps == 0) = true := by
    rw [List.all_eq_true]
    intro p hp
    obtain ⟨i, -, rfl⟩ := List.mem_range'.1 hp
    rw [beq_iff_eq, Nat.add_mul_mod_self_left, Nat.add_mod_right, halign]
  have hfit : len - ps ≤ (pagesTouched ps prp1 len - 1) * ps := by
    have hlt := Nat.lt_mul_div_succ (prp1 % ps + len + (ps - 1)) hps
    unfold pagesTouched
    rw [halign] at hlt ⊢
    rw [Nat.mul_add, Nat.mul_one, Nat.mul_comm] at hlt
    rw [Nat.sub_mul, Nat.one_mul]
    omega
  simp only [prpBytes, hpages, Option.bind_eq_bind, Option.bind_some, hall, if_true, halign,
    Nat.sub_zero]
  rw [pageBytes_range' _ hfit]
  by_cases hle : len ≤ ps
  · rw [Nat.min_eq_left hle, Nat.sub_eq_zero_of_le hle]
    simp
  · have hlen : len = ps + (len - ps) := by omega
    have happ := @List.range'_append prp1 ps (len - ps) 1
    rw [Nat.one_mul, ← hlen] at happ
    rw [Nat.min_eq_right (by omega), happ]
    rfl

/-! ## Entries that cannot be used -/

/-- PRP entry 2 is 0 where a second page is needed: the first byte of that page is read at address 0. -/
theorem prpBytes_two_ne {ps prp1 len : ℕ} {list : ℕ → Option ℕ}
    (hn : pagesTouched ps prp1 len - 1 = 1) (hps : 0 < ps) (hcross : ps < prp1 % ps + len) :
    prpBytes ps prp1 0 list len ≠ some (List.range' prp1 len) := by
  have hlt := Nat.mod_lt prp1 hps
  intro h
  have hbytes : List.range' prp1 (min len (ps - prp1 % ps)) ++ pageBytes ps [0] (len - (ps - prp1 % ps))
      = List.range' prp1 len := by
    simpa [prpBytes, furtherPages, hn] using h
  have hat := congrArg (fun bytes => bytes[ps - prp1 % ps]?) hbytes
  rw [Nat.min_eq_right (by omega), List.getElem?_append_right (by simp), List.length_range',
    Nat.sub_self, pageBytes, List.getElem?_append_left (by simp; omega)] at hat
  rw [List.getElem?_range' (by omega), List.getElem?_range' (by omega)] at hat
  have := Option.some.inj hat
  omega

/-- PRP entry 2 is not a page base. -/
theorem prpBytes_two_none {ps prp1 prp2 len : ℕ} {list : ℕ → Option ℕ}
    (hn : pagesTouched ps prp1 len - 1 = 1) (h : prp2 % ps ≠ 0) :
    prpBytes ps prp1 prp2 list len = none := by
  simp [prpBytes, furtherPages, hn, h]

/-- The first entry of the list cannot be read or is not a page base. -/
theorem prpBytes_list_none {ps prp1 prp2 len : ℕ} {list : ℕ → Option ℕ}
    (hn : 1 < pagesTouched ps prp1 len - 1)
    (h : list prp2 = none ∨ ∃ e, list prp2 = some e ∧ e % ps ≠ 0) :
    prpBytes ps prp1 prp2 list len = none := by
  obtain ⟨n, hn'⟩ : ∃ n, pagesTouched ps prp1 len - 1 = n + 1 :=
    ⟨pagesTouched ps prp1 len - 2, by omega⟩
  have hpages : furtherPages prp2 list (pagesTouched ps prp1 len - 1) = readList list prp2 (n + 1) := by
    unfold furtherPages
    rw [if_neg (by omega), if_neg (by omega), hn']
  rcases h with h | ⟨e, h, he⟩
  · simp [prpBytes, hpages, readList, h]
  · cases hrest : readList list (prp2 + 8) n with
    | none => simp [prpBytes, hpages, readList, h, hrest]
    | some es => simp [prpBytes, hpages, readList, h, hrest, he]

end Unvme.Nvme
