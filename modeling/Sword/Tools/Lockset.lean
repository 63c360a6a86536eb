import Sword.Lib.Held
import Sword.Tools.RoundTrip

/-!
# Locksets across block boundaries

The reader declares the set of mutexes inside its loop over the blocks, so every
block starts with the empty set.  Whether the calls it makes are those of the
uncut segment depends on where the accesses lie.

* `heldAfter_eq` — the mutexes held, as a set driven by acquire and release
  operations.
* `replay_eq_replay_iff` — two starting sets give the same calls exactly if they
  agree at every access.
* `LocksRenewed` — no access comes before the first operation, in its own block,
  on a mutex held since an earlier block.
* `replay_blocks_iff` / `load_replay_iff` — exactly then the calls made block by
  block are those of the segment.
* `lines_replay_iff` — the same for every line of every history.
-/

namespace Sword
namespace Tools

open Rtl Blocks

variable {lzo : Lzo}

/-! ## The mutexes held -/

/-- The operation of a trace item on the set of mutexes held. -/
def lockOp : TraceItem → Option (Held.Op UInt64)
  | .dataAccess _ => none
  | .mutexAcquired m => some (.acquire m.waitId)
  | .mutexReleased m => some (.release m.waitId)

/-- Some item acquires or releases the mutex. -/
def LockTouched (m : UInt64) (xs : List TraceItem) : Prop := Held.Touched m (xs.filterMap lockOp)

theorem heldAfter_eq (mutex : Finset UInt64) (xs : List TraceItem) :
    heldAfter mutex xs = Held.after mutex (xs.filterMap lockOp) := by
  induction xs generalizing mutex with
  | nil => rfl
  | cons x xs ih =>
    cases x <;> simp [lockOp, ih, holdAfter, Held.apply, List.filterMap_cons]

/-- Mutexes held before a list of items are forgotten after it exactly if the
items touch all of them. -/
theorem heldAfter_eq_iff {mutex : Finset UInt64} {xs : List TraceItem} :
    heldAfter mutex xs = heldAfter ∅ xs ↔ ∀ m ∈ mutex, LockTouched m xs := by
  rw [heldAfter_eq, heldAfter_eq, Held.after_eq_iff]
  rfl

theorem mem_heldAfter_of_not_touched {mutex : Finset UInt64} {m : UInt64} {xs : List TraceItem}
    (h : ¬ LockTouched m xs) : m ∈ heldAfter mutex xs ↔ m ∈ mutex := by
  rw [heldAfter_eq]
  exact Held.mem_after_of_not_touched h

/-! ## Replaying from different sets -/

/-- Two starting sets give the same calls exactly if they agree at every access. -/
theorem replay_eq_replay_iff {s t : Finset UInt64} {xs : List TraceItem} :
    replay s xs = replay t xs ↔
      ∀ pre a post, xs = pre ++ .dataAccess a :: post → heldAfter s pre = heldAfter t pre := by
  induction xs generalizing s t with
  | nil => simp [replay]
  | cons x xs ih =>
    have hcons : (∀ pre a post, x :: xs = pre ++ .dataAccess a :: post →
        heldAfter s pre = heldAfter t pre) ↔ (∀ a, x = .dataAccess a → s = t) ∧
          ∀ pre a post, xs = pre ++ .dataAccess a :: post →
            heldAfter (holdAfter s x) pre = heldAfter (holdAfter t x) pre := by
      constructor
      · intro h
        exact ⟨fun a ha => h [] a xs (by rw [ha]; rfl),
          fun pre a post hp => h (x :: pre) a post (by rw [hp]; rfl)⟩
      · rintro ⟨h0, h1⟩ pre a post hp
        cases pre with
        | nil => exact h0 a (List.cons.inj hp).1
        | cons y ys =>
          obtain ⟨rfl, hys⟩ := List.cons.inj hp
          exact h1 ys a post hys
    rw [hcons]
    cases x with
    | dataAccess a => simp [replay, ih, insertCall, holdAfter]
    | mutexAcquired m => simp [replay, ih]
    | mutexReleased m => simp [replay, ih]

theorem length_replay (s t : Finset UInt64) (xs : List TraceItem) :
    (replay s xs).length = (replay t xs).length := by
  induction xs generalizing s t with
  | nil => rfl
  | cons x xs ih =>
    cases x with
    | dataAccess a => simp [replay, ih s t]
    | mutexAcquired m => exact ih _ _
    | mutexReleased m => exact ih _ _

/-! ## Block by block -/

/-- In every block, no access comes before the first operation of that block on a
mutex that was held at its start. -/
def LocksRenewed (mutex : Finset UInt64) : List (List TraceItem) → Prop
  | [] => True
  | b :: bs => (∀ pre a post, b = pre ++ .dataAccess a :: post → ∀ m ∈ mutex, LockTouched m pre) ∧
      LocksRenewed (heldAfter mutex b) bs

/-- Starting every block with the empty set gives the calls of the whole exactly
if the locks are renewed. -/
theorem replay_blocks_iff {mutex : Finset UInt64} {bs : List (List TraceItem)} :
    bs.flatMap (replay ∅) = replay mutex bs.flatten ↔ LocksRenewed mutex bs := by
  induction bs generalizing mutex with
  | nil => simp [replay, LocksRenewed]
  | cons b bs ih =>
    rw [List.flatMap_cons, List.flatten_cons, replay_append, LocksRenewed, ← ih]
    have hblock : replay ∅ b = replay mutex b ↔
        ∀ pre a post, b = pre ++ .dataAccess a :: post → ∀ m ∈ mutex, LockTouched m pre := by
      rw [eq_comm, replay_eq_replay_iff]
      simp only [heldAfter_eq_iff]
    rw [← hblock]
    constructor
    · exact fun h => List.append_inj h (length_replay ∅ mutex b)
    · rintro ⟨h1, h2⟩
      rw [h1, h2]

/-- **Locksets and block boundaries.**  On the blocks the runtime cuts a segment
into, the reader makes the calls of the uncut segment, replayed with a single
lockset, exactly if no access comes before the first operation, in its own block,
on a mutex held since an earlier block. -/
theorem load_replay_iff (lzo : Lzo) (segment : List TraceItem) (pre tail : List UInt8) :
    (loadAndConvertFile lzo
        (pre ++ ((cut numOfAccesses segment).flatMap (frame lzo) ++ tail)) pre.length
        (pre.length + ((cut numOfAccesses segment).flatMap (frame lzo)).length)).map
          Loaded.calls = .ok (replay ∅ segment) ↔
      LocksRenewed ∅ (cut numOfAccesses segment) := by
  rw [loadAndConvertFile_cut, ← replay_blocks_iff, flatten_cut]
  simp [Except.map]

/-- Of every history whose dumps write what was posted, and every line of it. -/
theorem lines_replay_iff {hashCombine : UInt64 → UInt64 → UInt64} {evs : List Event}
    (hi : Intact (run lzo hashCombine onThreadBegin evs)) :
    let s := runDump lzo (run lzo hashCombine onThreadBegin evs)
    List.Forall₂ (fun l segment =>
      (loadAndConvertFile lzo s.datafile l.fileOffsetBegin l.fileOffsetEnd).map Loaded.calls =
          .ok (replay ∅ segment) ↔ LocksRenewed ∅ (cut numOfAccesses segment))
      s.metafile s.hist.segments := by
  refine (logInv_run hi).lines.imp fun l segment hc => ?_
  rw [loadAndConvertFile_covers hc, ← replay_blocks_iff, flatten_cut]
  simp [Except.map]

/-! ## An access in a critical section that straddles a boundary -/

variable {b : List TraceItem} {a : Access}

/-- A full block that ends under mutex 1, and an access behind it without another
operation on that mutex: the locks are not renewed. -/
theorem not_locksRenewed (hlen : b.length = numOfAccesses) (hb : 1 ∈ heldAfter ∅ b) :
    ¬ LocksRenewed ∅ (cut numOfAccesses (b ++ [.mutexReleased ⟨0, 2⟩, .dataAccess a])) := by
  have hlt : 2 < numOfAccesses := by decide
  rw [cut_append_of_length numOfAccesses_pos hlen, cut_of_length_lt (List.cons_ne_nil _ _) hlt]
  intro h
  obtain ⟨op, hop, harg⟩ := h.2.1 [.mutexReleased ⟨0, 2⟩] a [] rfl 1 hb
  obtain rfl := List.mem_singleton.1 hop
  exact absurd harg (by decide)

/-- The reader inserts the access without the mutex that protects it. -/
theorem straddling_calls_ne (lzo : Lzo) (hlen : b.length = numOfAccesses)
    (hb : 1 ∈ heldAfter ∅ b) {segment : List TraceItem}
    (hsegment : segment = b ++ [.mutexReleased ⟨0, 2⟩, .dataAccess a]) :
    (loadAndConvertFile lzo ((cut numOfAccesses segment).flatMap (frame lzo)) 0
      ((cut numOfAccesses segment).flatMap (frame lzo)).length).map Loaded.calls ≠
        .ok (replay ∅ segment) := by
  have hload := loadAndConvertFile_cut lzo segment [] []
  simp only [List.nil_append, List.append_nil, List.length_nil, Nat.zero_add] at hload
  rw [hload]
  intro h
  have hcalls : (cut numOfAccesses segment).flatMap (replay ∅) =
      replay ∅ (cut numOfAccesses segment).flatten := by
    rw [flatten_cut]
    simpa [Except.map] using h
  rw [replay_blocks_iff, hsegment] at hcalls
  exact not_locksRenewed hlen hb hcalls

/-- The lock events of a thread that enters the critical section of mutex 1 and,
inside it, enters and leaves another one `n` times and enters it once more. -/
def fillingLocks (n : Nat) : List TraceItem :=
  .mutexAcquired ⟨0, 1⟩ ::
    ((List.replicate n [.mutexAcquired ⟨0, 2⟩, .mutexReleased ⟨0, 2⟩]).flatten ++
      [.mutexAcquired ⟨0, 2⟩])

/-- A thread fills its buffer with such events and then writes a shared variable,
still holding mutex 1. -/
def straddlingTrace : List TraceItem :=
  fillingLocks 12499 ++
    [.mutexReleased ⟨0, 2⟩, .dataAccess (Access.make .size4 .unsafeWrite 4096 64)]

theorem length_fillingLocks {n : Nat} (hb : b = fillingLocks n) : b.length = n * 2 + 2 := by
  simp [hb, fillingLocks]

/-- Mutex 1 is held at the end of the first block. -/
theorem mem_heldAfter_fillingLocks {n : Nat} (hb : b = fillingLocks n) :
    1 ∈ heldAfter ∅ b := by
  have hnot : ¬ LockTouched 1 ((List.replicate n [TraceItem.mutexAcquired ⟨0, 2⟩,
      .mutexReleased ⟨0, 2⟩]).flatten ++ [.mutexAcquired ⟨0, 2⟩]) := by
    rintro ⟨op, hop, harg⟩
    obtain ⟨x, hx, hxop⟩ := List.mem_filterMap.1 hop
    have hcases : x = .mutexAcquired ⟨0, 2⟩ ∨ x = .mutexReleased ⟨0, 2⟩ := by
      rcases List.mem_append.1 hx with h | h
      · obtain ⟨l, hl, hxl⟩ := List.mem_flatten.1 h
        rw [List.eq_of_mem_replicate hl] at hxl
        exact List.mem_pair.1 hxl
      · exact Or.inl (List.mem_singleton.1 h)
    rcases hcases with rfl | rfl
    · obtain rfl := Option.some.inj hxop
      exact absurd harg (by decide)
    · obtain rfl := Option.some.inj hxop
      exact absurd harg (by decide)
  rw [hb, fillingLocks, heldAfter_cons, mem_heldAfter_of_not_touched hnot]
  decide

theorem straddlingTrace_calls_ne :
    (loadAndConvertFile Lzo.stored ((cut numOfAccesses straddlingTrace).flatMap (frame .stored)) 0
      ((cut numOfAccesses straddlingTrace).flatMap (frame .stored)).length).map Loaded.calls ≠
        .ok (replay ∅ straddlingTrace) := by
  obtain ⟨b, hb⟩ : ∃ b, b = fillingLocks 12499 := ⟨_, rfl⟩
  have hseg : straddlingTrace =
      b ++ [.mutexReleased ⟨0, 2⟩, .dataAccess (Access.make .size4 .unsafeWrite 4096 64)] := by
    rw [hb, straddlingTrace]
  exact straddling_calls_ne Lzo.stored (length_fillingLocks hb) (mem_heldAfter_fillingLocks hb) hseg

end Tools
end Sword
