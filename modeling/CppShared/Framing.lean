/-
# Blocks of one size in a stream

A sender writes blocks of `n` elements one after another, and the receiver gets the
stream cut into chunks of at most `n` elements.  `whole_iff_length` says that there
are as many chunks as blocks exactly when every chunk is a whole block, and
`eq_of_whole` that the chunks are then the blocks themselves.
-/
import Mathlib.Algebra.Order.BigOperators.Group.List
import Mathlib.Algebra.Order.Ring.Nat
import Mathlib.Algebra.Module.NatInt
import Mathlib.Data.List.Forall2

namespace Framing

variable {α β : Type*} {n : ℕ}

/-- The length of a stream of blocks. -/
theorem length_flatten_of_forall {blocks : List (List α)} (h : ∀ b ∈ blocks, b.length = n) :
    blocks.flatten.length = blocks.length * n := by
  have hlengths : ∀ k ∈ blocks.map List.length, k = n := List.forall_mem_map.mpr h
  rw [List.length_flatten, List.sum_eq_card_nsmul _ n hlengths, List.length_map, smul_eq_mul]

/-- The length of a stream of bounded chunks. -/
theorem length_flatten_le {chunks : List (List α)} (h : ∀ c ∈ chunks, c.length ≤ n) :
    chunks.flatten.length ≤ chunks.length * n := by
  have hlengths : ∀ k ∈ chunks.map List.length, k ≤ n := List.forall_mem_map.mpr h
  have hsum := List.sum_le_card_nsmul _ n hlengths
  rwa [← List.length_flatten, List.length_map, smul_eq_mul] at hsum

/-- Bounded chunks that fill the bound on the whole fill it each. -/
theorem forall_length_of_flatten {chunks : List (List α)} (h : ∀ c ∈ chunks, c.length ≤ n)
    (hfull : chunks.flatten.length = chunks.length * n) : ∀ c ∈ chunks, c.length = n := by
  induction chunks with
  | nil => simp
  | cons c rest ih =>
      have hle : ∀ d ∈ rest, d.length ≤ n := fun d hd => h d (List.mem_cons_of_mem c hd)
      have hc := h c List.mem_cons_self
      have hrest := length_flatten_le hle
      rw [List.flatten_cons, List.length_append, List.length_cons, Nat.succ_mul] at hfull
      intro d hd
      rcases List.mem_cons.mp hd with rfl | hd
      · omega
      · exact ih hle (by omega) d hd

section Stream

variable {chunks blocks : List (List α)} (hblocks : ∀ b ∈ blocks, b.length = n)
  (hstream : chunks.flatten = blocks.flatten)

include hblocks hstream

/-- There are as many chunks as blocks exactly when every chunk is a whole block. -/
theorem whole_iff_length (hpos : 0 < n) (hchunks : ∀ c ∈ chunks, c.length ≤ n) :
    chunks.length = blocks.length ↔ ∀ c ∈ chunks, c.length = n := by
  have hlength : chunks.flatten.length = blocks.length * n := by
    rw [hstream]
    exact length_flatten_of_forall hblocks
  constructor
  · intro heq
    apply forall_length_of_flatten hchunks
    rw [hlength, heq]
  · intro hwhole
    rw [length_flatten_of_forall hwhole] at hlength
    exact Nat.eq_of_mul_eq_mul_right hpos hlength

/-- Whole chunks are the blocks. -/
theorem eq_of_whole (hpos : 0 < n) (hwhole : ∀ c ∈ chunks, c.length = n) : chunks = blocks := by
  have hcount : chunks.length = blocks.length :=
    (whole_iff_length hblocks hstream hpos fun c hc => le_of_eq (hwhole c hc)).mpr hwhole
  have hreplicate : ∀ {l : List (List α)}, (∀ b ∈ l, b.length = n) →
      l.map List.length = List.replicate l.length n := by
    intro l hl
    rw [← List.map_const']
    exact List.map_congr_left hl
  apply List.eq_iff_flatten_eq.mpr
  refine ⟨hstream, ?_⟩
  rw [hreplicate hwhole, hreplicate hblocks, hcount]

/-- What a receiver has made of the chunks, one for each, corresponds to what the
sender made the blocks from exactly when every chunk is a whole block, as long as a
whole block is read as it was meant. -/
theorem forall₂_iff_whole {γ : Type*} {R : β → γ → Prop} {block : γ → List α} {made : List β}
    {sent : List γ} (hsent : blocks = sent.map block) (hpos : 0 < n)
    (hchunks : ∀ c ∈ chunks, c.length ≤ n)
    (hread : made.Forall₂ (fun b c => ∀ x, c = block x → R b x) chunks) :
    made.Forall₂ R sent ↔ ∀ c ∈ chunks, c.length = n := by
  constructor
  · intro hall
    apply (whole_iff_length hblocks hstream hpos hchunks).mp
    rw [← hread.length_eq, hall.length_eq, hsent, List.length_map]
  · intro hwhole
    rw [eq_of_whole hblocks hstream hpos hwhole, hsent, List.forall₂_map_right_iff] at hread
    exact hread.imp fun b x h => h x rfl

end Stream

end Framing
