import Myrmidon.Mailbox.Model

namespace Myrmidon.Network

inductive ErrorKind where
  | unexpectedEof
  | timedOut
  | invalidData
  | invalidInput
  | connectionAborted
  | other
  deriving DecidableEq

structure IoError where
  kind : ErrorKind
  message : String
  deriving DecidableEq

/-- What a read meets after the last byte: the peer closed, went silent past the
    timeout, or the socket failed. -/
inductive StreamEnd where
  | closed
  | silent
  | failed (error : IoError)
  deriving DecidableEq

def StreamEnd.error : StreamEnd → IoError
  | .closed => ⟨.unexpectedEof, "connection closed"⟩
  | .silent => ⟨.timedOut, "read timed out"⟩
  | .failed error => error

/-- One successful socket read never returns zero bytes. -/
abbrev Chunk := { bytes : Bytes // bytes ≠ [] }

structure Reader where
  chunks : List Chunk
  ending : StreamEnd

namespace Reader

def bytes (r : Reader) : Bytes := (r.chunks.map Subtype.val).flatten

/-- One `read` into a buffer with `room` bytes left; `none` at the end of the stream. -/
def read (r : Reader) (room : Nat) : Option (Bytes × Reader) :=
  match r.chunks with
  | [] => none
  | chunk :: chunks =>
    if rest : chunk.val.drop room = [] then some (chunk.val, { r with chunks })
    else some (chunk.val.take room, { r with chunks := ⟨chunk.val.drop room, rest⟩ :: chunks })

/-- The loop of `read_exact_with_timeout`; `buf` is the part filled so far. -/
def fill (len : Nat) : Nat → Reader → Bytes → Except IoError (Bytes × Reader)
  | 0, r, buf => if buf.length < len then .error r.ending.error else .ok (buf, r)
  | turns + 1, r, buf =>
    if buf.length < len then
      match r.read (len - buf.length) with
      | none => .error r.ending.error
      | some (got, r) => fill len turns r (buf ++ got)
    else .ok (buf, r)

def readExactWithTimeout (r : Reader) (len : Nat) : Except IoError (Bytes × Reader) := fill len len r []

theorem read_none {r : Reader} {room : Nat} (ended : r.read room = none) : r.bytes = [] := by
  cases chunks : r.chunks with
  | nil => simp [bytes, chunks]
  | cons chunk rest =>
    unfold read at ended
    rw [chunks] at ended
    dsimp only at ended
    split at ended <;> cases ended

theorem read_some {r next : Reader} {room : Nat} {got : Bytes} (positive : 0 < room)
    (taken : r.read room = some (got, next)) :
    got ≠ [] ∧ got.length ≤ room ∧ r.bytes = got ++ next.bytes ∧ next.ending = r.ending := by
  cases chunks : r.chunks with
  | nil =>
    unfold read at taken
    rw [chunks] at taken
    cases taken
  | cons chunk rest =>
    obtain ⟨data, filled⟩ := chunk
    have nonzero : 0 < data.length := List.length_pos_iff.mpr filled
    unfold read at taken
    rw [chunks] at taken
    dsimp only at taken
    split at taken
    · rename_i used
      cases taken
      exact ⟨filled, List.drop_eq_nil_iff.mp used, by simp [bytes, chunks], rfl⟩
    · cases taken
      refine ⟨?_, List.length_take_le _ _, ?_, rfl⟩
      · apply List.ne_nil_of_length_pos
        rw [List.length_take]
        omega
      · simp only [bytes, chunks, List.map_cons, List.flatten_cons]
        rw [← List.append_assoc, List.take_append_drop]

theorem fill_ok (len turns : Nat) (r : Reader) (buf : Bytes) (enough : len ≤ buf.length + turns)
    (shorter : buf.length ≤ len) (fits : len ≤ buf.length + r.bytes.length) :
    ∃ rest, fill len turns r buf = .ok (buf ++ r.bytes.take (len - buf.length), rest) ∧
      rest.bytes = r.bytes.drop (len - buf.length) ∧ rest.ending = r.ending := by
  induction turns generalizing r buf with
  | zero =>
    have full : len - buf.length = 0 := by omega
    have stop : ¬ buf.length < len := by omega
    simp only [fill, stop, if_false, full, List.take_zero, List.append_nil, List.drop_zero]
    exact ⟨r, rfl, rfl, rfl⟩
  | succ turns ih =>
    by_cases more : buf.length < len
    · have positive : 0 < len - buf.length := by omega
      simp only [fill, more, if_true]
      cases taken : r.read (len - buf.length) with
      | none =>
        rw [read_none taken, List.length_nil] at fits
        omega
      | some result =>
        obtain ⟨got, next⟩ := result
        obtain ⟨filled, bound, split, ending⟩ := read_some positive taken
        have progress := List.length_pos_iff.mpr filled
        rw [split, List.length_append] at fits
        obtain ⟨rest, done, left, same⟩ := ih next (buf ++ got)
          (by rw [List.length_append]; omega) (by rw [List.length_append]; omega)
          (by rw [List.length_append]; omega)
        have remaining : len - (buf ++ got).length = len - buf.length - got.length := by
          rw [List.length_append]
          omega
        rw [remaining] at done left
        refine ⟨rest, ?_, ?_, same.trans ending⟩
        · simp only [done, split]
          rw [List.take_append, List.take_of_length_le bound, List.append_assoc]
        · rw [left, split, List.drop_append, List.drop_of_length_le bound, List.nil_append]
    · have full : len - buf.length = 0 := by omega
      simp only [fill, more, if_false, full, List.take_zero, List.append_nil, List.drop_zero]
      exact ⟨r, rfl, rfl, rfl⟩

theorem fill_short (len turns : Nat) (r : Reader) (buf : Bytes) (short : buf.length + r.bytes.length < len) :
    fill len turns r buf = .error r.ending.error := by
  induction turns generalizing r buf with
  | zero =>
    have more : buf.length < len := by omega
    simp only [fill, more, if_true]
  | succ turns ih =>
    have more : buf.length < len := by omega
    have positive : 0 < len - buf.length := by omega
    simp only [fill, more, if_true]
    cases taken : r.read (len - buf.length) with
    | none => rfl
    | some result =>
      obtain ⟨got, next⟩ := result
      obtain ⟨-, -, split, ending⟩ := read_some positive taken
      rw [split, List.length_append] at short
      rw [← ending]
      exact ih next (buf ++ got) (by rw [List.length_append]; omega)

theorem readExact_ok {r : Reader} {len : Nat} (fits : len ≤ r.bytes.length) :
    ∃ rest, r.readExactWithTimeout len = .ok (r.bytes.take len, rest) ∧
      rest.bytes = r.bytes.drop len ∧ rest.ending = r.ending := by
  unfold readExactWithTimeout
  simpa using fill_ok len len r [] (by simp) (by simp) (by simpa using fits)

theorem readExact_short {r : Reader} {len : Nat} (short : r.bytes.length < len) :
    r.readExactWithTimeout len = .error r.ending.error :=
  fill_short len len r [] (by simpa using short)

theorem readExact_append {r : Reader} {front back : Bytes} (split : r.bytes = front ++ back) :
    ∃ rest, r.readExactWithTimeout front.length = .ok (front, rest) ∧
      rest.bytes = back ∧ rest.ending = r.ending := by
  obtain ⟨rest, done, left, ending⟩ := @readExact_ok r front.length (by simp [split])
  rw [split, List.take_left] at done
  rw [split, List.drop_left] at left
  exact ⟨rest, done, left, ending⟩

end Reader

end Myrmidon.Network
