import OneTape.Proofs.SoundMachine

/-!
# Histories of a queue

A queue keeps all bytes that were ever appended, and its cursor counts those that
were taken, so that nothing is lost, repeated or reordered by any mixture of
appending and taking.

This does not depend on where the cursor stands at first.  A queue that was read
from the wire may have its cursor past the end of its buffer.  Until enough bytes
have been appended nothing can be taken from such a queue and nothing can be shown
of it; from then on, and from the beginning in all other cases, the cursor stays
within the buffer.
-/

namespace OneTape

/-- What can be done to a queue. -/
inductive QueueAction where
  | append (bytes : List UInt8)
  | appendText (text : String)
  | push (byte : UInt8)
  | shift
  deriving DecidableEq

/-- What an action adds to a queue. -/
def QueueAction.appended : QueueAction → List UInt8
  | append bytes => bytes
  | appendText text => Utf8.encode text.toList
  | push byte => [byte]
  | shift => []

/-- All that some actions add to a queue. -/
def appendedBytes (actions : List QueueAction) : List UInt8 :=
  actions.flatMap QueueAction.appended

namespace ByteQueue

/-- An action with its answer, which is the byte that was taken, if any. -/
def perform (queue : ByteQueue) : QueueAction → Option UInt8 × ByteQueue
  | .append bytes => (none, queue.append bytes)
  | .appendText text => (none, queue.appendText text)
  | .push byte => (none, queue.push byte)
  | .shift => queue.shift

def after (queue : ByteQueue) (actions : List QueueAction) : ByteQueue :=
  actions.foldl (fun queue action => (queue.perform action).2) queue

/-- The bytes that some actions take from a queue, in this order. -/
def shifted (queue : ByteQueue) : List QueueAction → List UInt8
  | [] => []
  | action :: actions =>
      (queue.perform action).1.toList ++ (queue.perform action).2.shifted actions

@[simp]
theorem after_nil (queue : ByteQueue) : queue.after [] = queue := rfl

@[simp]
theorem after_cons (queue : ByteQueue) (action : QueueAction) (actions : List QueueAction) :
    queue.after (action :: actions) = (queue.perform action).2.after actions := rfl

section Perform

variable (queue : ByteQueue) (action : QueueAction)

/-- Taking yields the byte at the cursor, and the cursor moves if there is one. -/
theorem shift_eq :
    queue.shift = (queue.buffer.toList[queue.cursor]?,
      { queue with
        cursor := queue.cursor + queue.buffer.toList[queue.cursor]?.toList.length }) := by
  unfold shift
  rw [Array.getElem?_toList]
  split
  · rename_i byte found
    rw [found]
    rfl
  · rename_i missing
    rw [missing]
    rfl

theorem buffer_perform :
    (queue.perform action).2.buffer.toList = queue.buffer.toList ++ action.appended := by
  cases action <;> simp [perform, QueueAction.appended, appendText, shift_eq]

theorem cursor_perform :
    (queue.perform action).2.cursor =
      queue.cursor + (queue.perform action).1.toList.length := by
  cases action <;> simp [perform, appendText, shift_eq]

theorem inBounds_perform {queue : ByteQueue} (inBounds : queue.InBounds)
    (action : QueueAction) : (queue.perform action).2.InBounds := by
  cases action with
  | append bytes => exact inBounds_append inBounds bytes
  | appendText text => exact inBounds_append inBounds _
  | push byte => exact inBounds_push inBounds byte
  | shift => exact inBounds_shift inBounds

/-- What an action takes stands first among the bytes from the cursor on, with any
bytes appended later. -/
theorem drop_cursor_eq (bytes : List UInt8) :
    (queue.buffer.toList ++ bytes).drop queue.cursor =
      (queue.perform action).1.toList ++
        (queue.buffer.toList ++ bytes).drop (queue.perform action).2.cursor := by
  rw [cursor_perform]
  cases answer : (queue.perform action).1 with
  | none => rfl
  | some byte =>
      have found : queue.buffer.toList[queue.cursor]? = some byte := by
        cases action with
        | shift =>
            rw [perform, shift_eq] at answer
            exact answer
        | append | appendText | push => cases answer
      obtain ⟨inside, here⟩ := List.getElem?_eq_some_iff.mp found
      have alsoInside : queue.cursor < (queue.buffer.toList ++ bytes).length := by
        rw [List.length_append]
        exact Nat.lt_add_right _ inside
      rw [List.drop_eq_getElem_cons alsoInside, List.getElem_append_left inside, here]
      rfl

end Perform

section After

variable (queue : ByteQueue) (actions : List QueueAction)

theorem buffer_after :
    (queue.after actions).buffer.toList = queue.buffer.toList ++ appendedBytes actions := by
  induction actions generalizing queue with
  | nil => simp [appendedBytes]
  | cons action actions ih =>
      rw [after_cons, ih, buffer_perform, List.append_assoc]
      rfl

theorem cursor_after :
    (queue.after actions).cursor = queue.cursor + (queue.shifted actions).length := by
  induction actions generalizing queue with
  | nil => rfl
  | cons action actions ih =>
      rw [after_cons, ih, cursor_perform, shifted, List.length_append, Nat.add_assoc]

theorem inBounds_after {queue : ByteQueue} (inBounds : queue.InBounds)
    (actions : List QueueAction) : (queue.after actions).InBounds := by
  induction actions generalizing queue with
  | nil => exact inBounds
  | cons action actions ih => exact ih (inBounds_perform inBounds action)

/-- The bytes taken and the bytes left are those from the first cursor on. -/
theorem shifted_append_unread :
    queue.shifted actions ++ (queue.after actions).unread =
      (queue.buffer.toList ++ appendedBytes actions).drop queue.cursor := by
  induction actions generalizing queue with
  | nil => simp [shifted, unread, appendedBytes]
  | cons action actions ih =>
      have all : queue.buffer.toList ++ appendedBytes (action :: actions) =
          (queue.perform action).2.buffer.toList ++ appendedBytes actions := by
        rw [buffer_perform, List.append_assoc]
        rfl
      have taken := queue.drop_cursor_eq action (appendedBytes (action :: actions))
      rw [shifted, after_cons, List.append_assoc, ih, taken, all]

end After

section Views

variable {queue : ByteQueue}

/-- Within the buffer, the views show the unread bytes. -/
structure Shows (queue : ByteQueue) (bytes : List UInt8) : Prop where
  unread : queue.unread? = some bytes
  size : queue.size? = some bytes.length
  isEmpty : queue.isEmpty? = some (bytes.length == 0)
  text : queue.text? = some (String.ofList (Utf8.decodeLossy bytes))

/-- Past the buffer, no view shows anything. -/
structure ShowsNothing (queue : ByteQueue) : Prop where
  unread : queue.unread? = none
  size : queue.size? = none
  isEmpty : queue.isEmpty? = none
  text : queue.text? = none

theorem shows_unread (inBounds : queue.InBounds) : queue.Shows queue.unread := by
  have unread : queue.unread? = some queue.unread := if_pos inBounds
  have size : queue.size? = some queue.unread.length := by
    rw [size?, if_pos inBounds, ByteQueue.unread, List.length_drop, Array.length_toList]
  exact ⟨unread, size, by rw [isEmpty?, size]; rfl, by rw [text?, unread]; rfl⟩

theorem showsNothing (outOfBounds : ¬ queue.InBounds) : queue.ShowsNothing := by
  have unread : queue.unread? = none := if_neg outOfBounds
  have size : queue.size? = none := if_neg outOfBounds
  exact ⟨unread, size, by rw [isEmpty?, size]; rfl, by rw [text?, unread]; rfl⟩

end Views

/-- Whatever is done to a queue, its buffer is extended by what is appended, and its
cursor advances with each byte that is taken, which is the byte at the cursor.  A
queue shows the bytes from its cursor on, provided that the cursor is within the
buffer, where it then stays.  Of a queue that was new at first, the bytes taken and
the bytes left are all that was appended. -/
theorem history_fifo (queue : ByteQueue) (actions : List QueueAction) :
    let final := queue.after actions
    let all := queue.buffer.toList ++ appendedBytes actions
    final.buffer.toList = all ∧
      final.cursor = queue.cursor + (queue.shifted actions).length ∧
      (∀ inside : final.cursor < all.length,
        final.shift = (some all[final.cursor], { final with cursor := final.cursor + 1 })) ∧
      (all.length ≤ final.cursor → final.shift = (none, final)) ∧
      (final.cursor ≤ all.length → final.Shows (all.drop final.cursor)) ∧
      (all.length < final.cursor → final.ShowsNothing) ∧
      (final.cursor ≤ all.length →
        ∀ later, (final.after later).cursor ≤ all.length + (appendedBytes later).length) ∧
      queue.shifted actions ++ all.drop final.cursor = all.drop queue.cursor ∧
      (queue = empty → final.Shows (all.drop final.cursor) ∧
        queue.shifted actions ++ all.drop final.cursor = appendedBytes actions) := by
  intro final all
  have buffer : final.buffer.toList = all := queue.buffer_after actions
  have unread : final.unread = all.drop final.cursor := by
    rw [ByteQueue.unread, buffer]
  have inBounds : final.InBounds ↔ final.cursor ≤ all.length := by
    rw [InBounds, ← Array.length_toList, buffer]
  have fifo : queue.shifted actions ++ all.drop final.cursor = all.drop queue.cursor := by
    rw [← unread]
    exact queue.shifted_append_unread actions
  have shows : final.cursor ≤ all.length → final.Shows (all.drop final.cursor) := by
    intro within
    rw [← unread]
    exact shows_unread (inBounds.mpr within)
  refine ⟨buffer, queue.cursor_after actions, ?_, ?_, shows, ?_, ?_, fifo, ?_⟩
  · intro inside
    rw [shift_eq, buffer, List.getElem?_eq_getElem inside]
    rfl
  · intro past
    rw [shift_eq, buffer, List.getElem?_eq_none past]
    rfl
  · intro past
    exact showsNothing (mt inBounds.mp (Nat.not_le.mpr past))
  · intro within later
    have stays := inBounds_after (inBounds.mpr within) later
    rw [InBounds, ← Array.length_toList, buffer_after, buffer, List.length_append] at stays
    exact stays
  · rintro rfl
    have started : empty.InBounds := Nat.le_refl 0
    refine ⟨shows (inBounds.mp (inBounds_after started actions)), ?_⟩
    rw [fifo]
    rfl

/-- A cursor that is two places past the buffer at first. -/
theorem history_fifo_past_buffer :
    let queue : ByteQueue := { buffer := #[7], cursor := 3 }
    let caughtUp := queue.after [.shift, .append [8, 9]]
    let readable := queue.after [.shift, .append [8, 9], .shift, .push 10, .appendText "é"]
    queue.ShowsNothing ∧ caughtUp.Shows [] ∧ caughtUp.shift = (none, caughtUp) ∧
      readable.Shows [10, 0xC3, 0xA9] ∧
      readable.shift = (some 10, { readable with cursor := 4 }) ∧
      empty.shifted [.push 1, .shift, .append [2, 3]] ++ [2, 3] = [1, 2, 3] := by
  intro queue caughtUp readable
  obtain ⟨-, -, -, -, -, nothing, -⟩ := history_fifo queue []
  obtain ⟨-, -, -, stops, shows, -⟩ := history_fifo queue [.shift, .append [8, 9]]
  obtain ⟨-, -, takes, -, alsoShows, -⟩ :=
    history_fifo queue [.shift, .append [8, 9], .shift, .push 10, .appendText "é"]
  obtain ⟨-, -, -, -, -, -, -, -, fresh⟩ := history_fifo empty [.push 1, .shift, .append [2, 3]]
  exact ⟨nothing (by decide), shows (by decide), stops (by decide), alsoShows (by decide),
    takes (by decide), (fresh rfl).2⟩

end ByteQueue
end OneTape
