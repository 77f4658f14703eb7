import OneTape.Utf8

/-!
# Byte queues

The input, output and diagnostic channels of a machine are queues of bytes.
Bytes are appended at the end; taking a byte moves a cursor and keeps the
buffer, so a queue also remembers what has been consumed.

A queue that was read from the wire may have its cursor past the end of its
buffer.  Its unread part is then undefined, which the views ending in a
question mark report by `none`, until enough bytes are appended.
-/

namespace OneTape

/-- A first-in first-out channel: all bytes ever appended, and how many of them
have been taken. -/
structure ByteQueue where
  buffer : Array UInt8 := #[]
  cursor : Nat := 0
  deriving DecidableEq

namespace ByteQueue

def empty : ByteQueue := {}

def append (queue : ByteQueue) (bytes : List UInt8) : ByteQueue :=
  { queue with buffer := queue.buffer ++ bytes }

/-- Append the UTF-8 bytes of a text. -/
def appendText (queue : ByteQueue) (text : String) : ByteQueue :=
  queue.append (Utf8.encode text.toList)

def push (queue : ByteQueue) (byte : UInt8) : ByteQueue :=
  { queue with buffer := queue.buffer.push byte }

/-- Take the oldest unread byte.  With nothing left the queue stays as it is. -/
def shift (queue : ByteQueue) : Option UInt8 × ByteQueue :=
  match queue.buffer[queue.cursor]? with
  | some byte => (some byte, { queue with cursor := queue.cursor + 1 })
  | none => (none, queue)

/-- The unread bytes, oldest first; none are left once the cursor is at the end
of the buffer or past it. -/
def unread (queue : ByteQueue) : List UInt8 :=
  queue.buffer.toList.drop queue.cursor

/-- The cursor is within the buffer. -/
def InBounds (queue : ByteQueue) : Prop :=
  queue.cursor ≤ queue.buffer.size

instance (queue : ByteQueue) : Decidable queue.InBounds :=
  inferInstanceAs (Decidable (_ ≤ _))

/-- The unread bytes, provided that the cursor is within the buffer. -/
def unread? (queue : ByteQueue) : Option (List UInt8) :=
  if queue.InBounds then some queue.unread else none

/-- The number of unread bytes. -/
def size? (queue : ByteQueue) : Option Nat :=
  if queue.InBounds then some (queue.buffer.size - queue.cursor) else none

def isEmpty? (queue : ByteQueue) : Option Bool :=
  queue.size?.map (· == 0)

/-- The unread bytes as text. -/
def text? (queue : ByteQueue) : Option String :=
  queue.unread?.map fun bytes => String.ofList (Utf8.decodeLossy bytes)

/-- Whether the queue equals a new one that received only its unread bytes. -/
def isFresh? (queue : ByteQueue) : Option Bool :=
  queue.unread?.map fun bytes => queue == empty.append bytes

/-- To push a byte is to append it alone. -/
theorem push_eq_append (queue : ByteQueue) (byte : UInt8) :
    queue.push byte = queue.append [byte] := by
  simp [push, append]

@[simp]
theorem buffer_append (queue : ByteQueue) (bytes : List UInt8) :
    (queue.append bytes).buffer.toList = queue.buffer.toList ++ bytes := by
  simp [append]

@[simp]
theorem buffer_push (queue : ByteQueue) (byte : UInt8) :
    (queue.push byte).buffer.toList = queue.buffer.toList ++ [byte] := by
  rw [push_eq_append, buffer_append]

@[simp]
theorem cursor_append (queue : ByteQueue) (bytes : List UInt8) :
    (queue.append bytes).cursor = queue.cursor := rfl

@[simp]
theorem cursor_push (queue : ByteQueue) (byte : UInt8) :
    (queue.push byte).cursor = queue.cursor := rfl

theorem unread_append {queue : ByteQueue} (inBounds : queue.InBounds)
    (bytes : List UInt8) :
    (queue.append bytes).unread = queue.unread ++ bytes := by
  unfold InBounds at inBounds
  rw [unread, buffer_append]
  exact List.drop_append_of_le_length (by simpa using inBounds)

theorem unread_push {queue : ByteQueue} (inBounds : queue.InBounds)
    (byte : UInt8) :
    (queue.push byte).unread = queue.unread ++ [byte] := by
  rw [push_eq_append]
  exact unread_append inBounds [byte]

theorem shift_of_unread_nil {queue : ByteQueue} (nothing : queue.unread = []) :
    queue.shift = (none, queue) := by
  have atEnd : queue.buffer.size ≤ queue.cursor := by
    simpa [unread] using nothing
  simp [shift, Array.getElem?_eq_none atEnd]

theorem shift_of_unread_cons {queue : ByteQueue} {byte : UInt8}
    {rest : List UInt8} (next : queue.unread = byte :: rest) :
    queue.shift.1 = some byte ∧ queue.shift.2.unread = rest ∧
      queue.shift.2.buffer = queue.buffer := by
  have found : queue.buffer[queue.cursor]? = some byte := by
    have := congrArg List.head? next
    simpa [unread, List.head?_drop] using this
  refine ⟨by simp [shift, found], ?_, by simp [shift, found]⟩
  have := congrArg List.tail next
  simpa [shift, found, unread] using this

end ByteQueue
end OneTape
