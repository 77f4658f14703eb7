import OneTape.Proofs.LossyDecoding
import OneTape.Proofs.QueueHistory

/-!
# Text in a queue

A text may enter a queue in any pieces, even with the bytes of one character in several
of them, and it is shown whole.  As long as whole characters have been taken, the rest
of the text is shown, and this does not depend on when they were taken.

Bytes that are no text may follow.  They do not change how the text before them is
shown, because no byte is read back once a character is finished.
-/

namespace OneTape

theorem Utf8.decodeLossy_encode (text : List Char) : decodeLossy (encode text) = text := by
  simpa using decodeLossy_encode_append text []

theorem Utf8.ofList_decodeLossy_append (text : String) (bytes : List UInt8) :
    String.ofList (decodeLossy (encode text.toList ++ bytes)) =
      text ++ String.ofList (decodeLossy bytes) := by
  rw [decodeLossy_encode_append, String.ofList_append, String.ofList_toList]

namespace ByteQueue

section Text

variable {actions : List QueueAction}

/-- Only taking takes bytes. -/
theorem shifted_eq_nil (queue : ByteQueue) (noShift : .shift ∉ actions) :
    queue.shifted actions = [] := by
  induction actions generalizing queue with
  | nil => rfl
  | cons action actions ih =>
      rw [List.mem_cons, not_or] at noShift
      obtain ⟨differs, noneLater⟩ := noShift
      rw [shifted, ih _ noneLater, List.append_nil]
      cases action with
      | shift => contradiction
      | append | appendText | push => rfl

/-- What a new queue has left, when the bytes of a beginning have been taken. -/
theorem unread_of_shifted {first rest : List UInt8}
    (appended : appendedBytes actions = first ++ rest) (taken : empty.shifted actions = first) :
    (empty.after actions).unread = rest := by
  have fifo := empty.shifted_append_unread actions
  rw [taken, appended] at fifo
  exact List.append_cancel_left fifo

theorem text?_of_shifted {first second : String}
    (appended : appendedBytes actions = Utf8.encode (first ++ second).toList)
    (taken : empty.shifted actions = Utf8.encode first.toList) :
    (empty.after actions).text? = some second := by
  have started : empty.InBounds := Nat.le_refl 0
  rw [String.toList_append, Utf8.encode_append] at appended
  rw [(shows_unread (inBounds_after started actions)).text, unread_of_shifted appended taken,
    Utf8.decodeLossy_encode, String.ofList_toList]

end Text

/-- A new queue that receives the bytes of a text, in any pieces, shows this text.  When
the bytes of a beginning of the text have been taken, at any time, it shows the rest.
Whatever bytes follow a text are shown behind it in the same way as alone.  Bytes that
are no text are shown with one replacement character for each maximal subpart. -/
theorem text_survives :
    (∀ (actions : List QueueAction) (text : String), .shift ∉ actions →
        appendedBytes actions = Utf8.encode text.toList →
        (empty.after actions).text? = some text) ∧
      (∀ (actions : List QueueAction) (first second : String),
        appendedBytes actions = Utf8.encode (first ++ second).toList →
        empty.shifted actions = Utf8.encode first.toList →
        (empty.after actions).text? = some second) ∧
      (∀ (text : String) (bytes : List UInt8),
        String.ofList (Utf8.decodeLossy (Utf8.encode text.toList ++ bytes)) =
          text ++ String.ofList (Utf8.decodeLossy bytes)) ∧
      ∀ (bytes : List UInt8) (text : List Char),
        Utf8.decodeLossy bytes = text ↔ Utf8.Shows bytes text := by
  refine ⟨?_, ?_, Utf8.ofList_decodeLossy_append, fun _ _ => Utf8.decodeLossy_eq_iff⟩
  · intro actions text noShift appended
    have taken : empty.shifted actions = Utf8.encode "".toList := shifted_eq_nil _ noShift
    apply text?_of_shifted _ taken
    rw [String.empty_append, appended]
  · intro actions first second appended taken
    exact text?_of_shifted appended taken

/-- Characters of one, two, three and four bytes, in pieces that end inside of them. -/
theorem text_survives_pieces :
    let whole : List QueueAction :=
      [.append [0x61, 0xC3], .push 0xA9, .append [0xE2, 0x82], .append [0xAC, 0xF0, 0x9F],
        .push 0x98, .append [], .push 0x80]
    let partly : List QueueAction :=
      [.shift, .append [0x61, 0xC3], .shift, .shift, .push 0xA9, .append [0xE2, 0x82], .shift,
        .push 0xAC, .appendText "😀"]
    (.shift ∉ whole ∧ appendedBytes whole = Utf8.encode "aé€😀".toList ∧
        (empty.after whole).text? = some "aé€😀") ∧
      appendedBytes partly = Utf8.encode ("aé" ++ "€😀").toList ∧
      empty.shifted partly = Utf8.encode "aé".toList ∧
      (empty.after partly).text? = some "€😀" := by
  intro whole partly
  have noShift : .shift ∉ whole := by decide
  have wholeBytes : appendedBytes whole = Utf8.encode "aé€😀".toList := by decide
  have partlyBytes : appendedBytes partly = Utf8.encode ("aé" ++ "€😀").toList := by decide
  have taken : empty.shifted partly = Utf8.encode "aé".toList := by decide
  exact ⟨⟨noShift, wholeBytes, text_survives.1 whole "aé€😀" noShift wholeBytes⟩, partlyBytes, taken,
    text_survives.2.1 partly "aé" "€😀" partlyBytes taken⟩

end ByteQueue
end OneTape
