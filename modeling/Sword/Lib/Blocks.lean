import Mathlib

/-!
# Cutting a stream into blocks of bounded size

A writer collects items in a buffer that holds `n` of them.  When the buffer is
full it goes out as a block; when the stream is cut off, whatever is left goes
out as a last, shorter block.

* `fill` — one item arrives; `fillAll` — a whole stream does.
* `close` — the stream is cut off.
* `cut` — the blocks a stream is written as.
* `flatten_cut` — nothing is lost, duplicated or reordered.
* `length_le_of_mem_cut` / `ne_nil_of_mem_cut` — no block is empty and none
  exceeds the buffer.
* `cut_append_of_length` — the first `n` items of a stream are its first block.
-/

namespace Sword
namespace Blocks

variable {α : Type}

/-- One item arrives: the blocks written so far and the buffer behind them. -/
def fill (n : Nat) (s : List (List α) × List α) (x : α) : List (List α) × List α :=
  if s.2.length + 1 = n then (s.1 ++ [s.2 ++ [x]], []) else (s.1, s.2 ++ [x])

/-- The blocks and the buffer after a whole stream, starting from nothing. -/
def fillAll (n : Nat) (xs : List α) : List (List α) × List α := xs.foldl (fill n) ([], [])

/-- The stream is cut off: a non-empty buffer becomes the last block. -/
def close (s : List (List α) × List α) : List (List α) :=
  if s.2 = [] then s.1 else s.1 ++ [s.2]

/-- The blocks a stream is written as when the buffer holds `n` items. -/
def cut (n : Nat) (xs : List α) : List (List α) := close (fillAll n xs)

@[simp] theorem fillAll_nil (n : Nat) : fillAll n ([] : List α) = ([], []) := rfl

theorem fillAll_concat (n : Nat) (xs : List α) (x : α) :
    fillAll n (xs ++ [x]) = fill n (fillAll n xs) x := by
  simp [fillAll]

@[simp] theorem cut_nil (n : Nat) : cut n ([] : List α) = [] := rfl

theorem flatten_fill (n : Nat) (s : List (List α) × List α) (x : α) :
    (fill n s x).1.flatten ++ (fill n s x).2 = s.1.flatten ++ s.2 ++ [x] := by
  unfold fill
  split <;> simp

theorem flatten_fillAll (n : Nat) (xs : List α) :
    (fillAll n xs).1.flatten ++ (fillAll n xs).2 = xs := by
  induction xs using List.reverseRecOn with
  | nil => rfl
  | append_singleton xs x ih => rw [fillAll_concat, flatten_fill, ih]

theorem flatten_close (s : List (List α) × List α) : (close s).flatten = s.1.flatten ++ s.2 := by
  unfold close
  split
  · rename_i h; simp [h]
  · simp

/-- The blocks of a stream, put back together, are the stream. -/
theorem flatten_cut (n : Nat) (xs : List α) : (cut n xs).flatten = xs := by
  rw [cut, flatten_close, flatten_fillAll]

/-- The buffer never holds `n` items: it is emptied as it gets full. -/
theorem length_fillAll_lt {n : Nat} (hn : 0 < n) (xs : List α) : (fillAll n xs).2.length < n := by
  induction xs using List.reverseRecOn with
  | nil => simpa using hn
  | append_singleton xs x ih =>
    rw [fillAll_concat, fill]
    split
    · simpa using hn
    · rename_i h
      simp only [List.length_append, List.length_singleton]
      omega

/-- Every block written before the stream is cut off is a full one. -/
theorem length_of_mem_fillAll {n : Nat} {xs : List α} {b : List α} (hb : b ∈ (fillAll n xs).1) :
    b.length = n := by
  induction xs using List.reverseRecOn with
  | nil => simp at hb
  | append_singleton xs x ih =>
    rw [fillAll_concat, fill] at hb
    split at hb
    · rename_i h
      rcases List.mem_append.1 hb with h1 | h1
      · exact ih h1
      · rw [List.mem_singleton.1 h1]
        simpa using h
    · exact ih hb

theorem mem_cut {n : Nat} {xs b : List α} (hb : b ∈ cut n xs) :
    b ∈ (fillAll n xs).1 ∨ (b = (fillAll n xs).2 ∧ b ≠ []) := by
  rw [cut, close] at hb
  split at hb
  · exact Or.inl hb
  · rename_i h
    rcases List.mem_append.1 hb with h1 | h1
    · exact Or.inl h1
    · rw [List.mem_singleton] at h1
      exact Or.inr ⟨h1, by rw [h1]; exact h⟩

theorem length_le_of_mem_cut {n : Nat} (hn : 0 < n) {xs b : List α} (hb : b ∈ cut n xs) :
    b.length ≤ n := by
  rcases mem_cut hb with h | ⟨rfl, -⟩
  · exact (length_of_mem_fillAll h).le
  · exact (length_fillAll_lt hn xs).le

theorem ne_nil_of_mem_cut {n : Nat} (hn : 0 < n) {xs b : List α} (hb : b ∈ cut n xs) :
    b ≠ [] := by
  rcases mem_cut hb with h | ⟨-, h⟩
  · rintro rfl
    rw [← length_of_mem_fillAll h] at hn
    simp at hn
  · exact h

/-- Blocks already written are not looked at again. -/
theorem foldl_fill (n : Nat) (bs : List (List α)) (buf xs : List α) :
    xs.foldl (fill n) (bs, buf) =
      (bs ++ (xs.foldl (fill n) ([], buf)).1, (xs.foldl (fill n) ([], buf)).2) := by
  induction xs using List.reverseRecOn with
  | nil => simp
  | append_singleton xs x ih =>
    rw [List.foldl_concat, List.foldl_concat, ih, fill, fill]
    split <;> simp

theorem fillAll_of_length_lt {n : Nat} {xs : List α} (h : xs.length < n) :
    fillAll n xs = ([], xs) := by
  induction xs using List.reverseRecOn with
  | nil => rfl
  | append_singleton xs x ih =>
    rw [List.length_append, List.length_singleton] at h
    rw [fillAll_concat, ih (by omega), fill, if_neg (by dsimp only; omega)]

theorem fillAll_of_length_eq {n : Nat} (hn : 0 < n) {xs : List α} (h : xs.length = n) :
    fillAll n xs = ([xs], []) := by
  rcases List.eq_nil_or_concat xs with rfl | ⟨ys, y, rfl⟩
  · simp at h
    omega
  · rw [List.concat_eq_append, List.length_append, List.length_singleton] at h
    rw [List.concat_eq_append, fillAll_concat, fillAll_of_length_lt (by omega), fill, if_pos h]
    rfl

/-- The first `n` items of a stream are its first block. -/
theorem cut_append_of_length {n : Nat} (hn : 0 < n) {xs : List α} (h : xs.length = n)
    (ys : List α) : cut n (xs ++ ys) = xs :: cut n ys := by
  have hfold : fillAll n (xs ++ ys) = (xs :: (fillAll n ys).1, (fillAll n ys).2) := by
    have hxs : xs.foldl (fill n) ([], []) = ([xs], []) := fillAll_of_length_eq hn h
    rw [fillAll, List.foldl_append, hxs, foldl_fill]
    rfl
  rw [cut, cut, hfold, close, close]
  split <;> rfl

/-- A stream that fits into the buffer is a single block. -/
theorem cut_of_length_lt {n : Nat} {xs : List α} (hne : xs ≠ []) (h : xs.length < n) :
    cut n xs = [xs] := by
  rw [cut, fillAll_of_length_lt h, close, if_neg hne, List.nil_append]

end Blocks
end Sword
