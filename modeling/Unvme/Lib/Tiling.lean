import Mathlib.Data.Multiset.Bind
import Mathlib.Data.List.Nodup

set_option autoImplicit false

/-! # Tilings of an address range

A span is a range of addresses. A collection of spans tiles a region if every address of the region is
in exactly one of them and no other address is in any: as multisets, their addresses together are the
addresses of the region. Cutting a span in two keeps a tiling, in both directions (`Tiles.split`);
everything about overlap and loss of memory follows from the equation. -/

namespace Unvme.Lib

/-- The addresses from `start` on, `size` many. -/
structure Span where
  start : ℕ
  size : ℕ
  deriving DecidableEq, Repr

/-- The addresses of a span. -/
@[irreducible] def Span.bytes (b : Span) : Multiset ℕ := (List.range' b.start b.size : List ℕ)

@[simp] theorem Span.mem_bytes {b : Span} {a : ℕ} :
    a ∈ b.bytes ↔ b.start ≤ a ∧ a < b.start + b.size := by
  rw [Span.bytes, Multiset.mem_coe, List.mem_range'_1]

theorem Span.bytes_nodup (b : Span) : b.bytes.Nodup := by
  rw [Span.bytes, Multiset.coe_nodup]
  exact List.nodup_range'

theorem Span.bytes_card (b : Span) : Multiset.card b.bytes = b.size := by
  rw [Span.bytes, Multiset.coe_card, List.length_range']

/-- A span cut in two. -/
theorem Span.bytes_add (a s t : ℕ) :
    Span.bytes ⟨a, s + t⟩ = Span.bytes ⟨a, s⟩ + Span.bytes ⟨a + s, t⟩ := by
  simp only [Span.bytes, Multiset.coe_add, List.range'_append_1]

/-- The spans `M` tile the region `r`. -/
def Tiles (M : Multiset Span) (r : Span) : Prop := M.bind Span.bytes = r.bytes

namespace Tiles

variable {M : Multiset Span} {r b c : Span} {x : ℕ}

theorem split {a s t : ℕ} :
    Tiles (⟨a, s + t⟩ ::ₘ M) r ↔ Tiles (⟨a, s⟩ ::ₘ ⟨a + s, t⟩ ::ₘ M) r := by
  simp only [Tiles, Multiset.cons_bind, Span.bytes_add, add_assoc]

theorem mem_iff (h : Tiles M r) : x ∈ r.bytes ↔ ∃ b ∈ M, x ∈ b.bytes := by
  rw [← h, Multiset.mem_bind]

theorem sub (h : Tiles M r) (hb : b ∈ M) (hx : x ∈ b.bytes) : x ∈ r.bytes :=
  h.mem_iff.2 ⟨b, hb, hx⟩

/-- Two spans of a tiling do not meet. -/
theorem disjoint (h : Tiles (b ::ₘ M) r) (hc : c ∈ M) (hx : x ∈ b.bytes) : x ∉ c.bytes := by
  intro hxc
  have hnodup : ((b ::ₘ M).bind Span.bytes).Nodup := by
    rw [h]
    exact r.bytes_nodup
  rw [Multiset.cons_bind, Multiset.nodup_add] at hnodup
  exact Multiset.disjoint_left.1 hnodup.2.2 hx (Multiset.mem_bind.2 ⟨c, hc, hxc⟩)

theorem disjoint_add {N : Multiset Span} (h : Tiles (M + N) r) (hb : b ∈ M) (hc : c ∈ N)
    (hx : x ∈ b.bytes) : x ∉ c.bytes := by
  obtain ⟨M', rfl⟩ := Multiset.exists_cons_of_mem hb
  rw [Multiset.cons_add] at h
  exact h.disjoint (Multiset.mem_add.2 (Or.inr hc)) hx

/-- No two spans of a listed part of a tiling meet. -/
theorem pairwise {l : List Span} {N : Multiset Span} (h : Tiles (↑l + N) r) :
    l.Pairwise (fun b c => ∀ x ∈ b.bytes, x ∉ c.bytes) := by
  induction l generalizing N with
  | nil => exact List.Pairwise.nil
  | cons b l ih =>
      rw [← Multiset.cons_coe, Multiset.cons_add] at h
      refine List.pairwise_cons.2 ⟨?_, ?_⟩
      · intro c hc x hx
        exact h.disjoint (Multiset.mem_add.2 (Or.inl (Multiset.mem_coe.2 hc))) hx
      · refine ih (N := b ::ₘ N) ?_
        rw [Multiset.add_cons]
        exact h

/-- An address is in one span of a tiling only. -/
theorem eq_of_mem (h : Tiles M r) (hb : b ∈ M) (hc : c ∈ M) (hxb : x ∈ b.bytes)
    (hxc : x ∈ c.bytes) : b = c := by
  obtain ⟨M', rfl⟩ := Multiset.exists_cons_of_mem hb
  rcases Multiset.mem_cons.1 hc with rfl | hc
  · rfl
  · exact absurd hxc (h.disjoint hc hxb)

/-- The sizes add up. -/
theorem sum_size (h : Tiles M r) : (M.map Span.size).sum = r.size := by
  rw [← r.bytes_card, ← h, Multiset.card_bind]
  congr 1
  exact Multiset.map_congr rfl (fun b _ => b.bytes_card.symm)

/-- Spans of at least `s` addresses are not more than fit into the region. -/
theorem card_le (h : Tiles M r) {s : ℕ} (hs : ∀ b ∈ M, s ≤ b.size) :
    Multiset.card M * s ≤ r.size := by
  rw [← h.sum_size]
  clear h
  induction M using Multiset.induction_on with
  | empty => simp
  | cons b M ih =>
      have hb := hs b (Multiset.mem_cons_self b M)
      have hM := ih (fun c hc => hs c (Multiset.mem_cons_of_mem hc))
      rw [Multiset.card_cons, Multiset.map_cons, Multiset.sum_cons, Nat.succ_mul]
      omega

end Tiles

end Unvme.Lib
