import PlistCodec.Opack.Error

/-!
# Positions in a stream

A `Cursor` is a place in an OPACK stream: how many bytes lie before it, and the bytes that follow.
A `Parser` reads one thing at a cursor and moves past it; that every success leaves fewer bytes is
part of its type, so the loops `many` and `readAll` end on every stream.
-/

namespace PlistCodec.Opack

/-- A place in a stream. -/
structure Cursor where
  /-- The number of bytes before the place. -/
  offset : Nat
  /-- The bytes from the place on. -/
  rest : Bytes
deriving DecidableEq, Repr

namespace Cursor

/-- The length of the whole stream. -/
def streamLength (c : Cursor) : Nat := c.offset + c.rest.length

/-- The greatest index that can be reported; indices have 64 bits. -/
def maxIndex : Nat := Bytes.values 8 - 1

/-- The report of a read of `n` bytes that the stream does not have. -/
def short (c : Cursor) (n : Nat) : Error :=
  .outOfBounds (min (c.offset + n) maxIndex) c.streamLength

/-- The next `n` bytes. -/
def take (c : Cursor) (n : Nat) : Except Error (Bytes × Cursor) :=
  match Bytes.takeExactly? n c.rest with
  | some (taken, rest) => .ok (taken, ⟨c.offset + n, rest⟩)
  | none => .error (c.short n)

theorem rest_length_of_take {c next : Cursor} {n : Nat} {taken : Bytes}
    (h : c.take n = .ok (taken, next)) : next.rest.length + n = c.rest.length := by
  unfold take at h
  split at h
  · next taken' rest hs =>
    obtain ⟨hn, hb⟩ := Bytes.takeExactly?_eq_some_iff.mp hs
    cases h
    simp only [hb, List.length_append, ← hn]
    omega
  · cases h

end Cursor

/-- A way to read something at a cursor and move past it. -/
structure Parser (α : Type) where
  /-- What is read, and the cursor behind it. -/
  run : Cursor → Except Error (α × Cursor)
  /-- Something is always consumed. -/
  advances : ∀ {c next : Cursor} {a : α}, run c = .ok (a, next) → next.rest.length < c.rest.length

namespace Parser

variable {α : Type}

/-- The parser that always fails. -/
def fail (e : Error) : Parser α where
  run _ := .error e
  advances h := nomatch h

/-- Reads until there is nothing more to read, which the parser says by `none`. -/
def many (p : Parser (Option α)) (c : Cursor) : Except Error (List α × Cursor) :=
  match _h : p.run c with
  | .error e => .error e
  | .ok (none, next) => .ok ([], next)
  | .ok (some a, next) =>
    match many p next with
    | .error e => .error e
    | .ok (as, last) => .ok (a :: as, last)
termination_by c.rest.length
decreasing_by exact p.advances _h

/-- Reads `n` times; there has to be something to read each time. -/
def exactly (p : Parser (Option α)) : (n : Nat) → (c : Cursor) → Except Error (List α × Cursor)
  | 0, c => .ok ([], c)
  | n + 1, c =>
    match p.run c with
    | .error e => .error e
    | .ok (none, _) => .error (.unexpectedTerminator c.offset)
    | .ok (some a, next) =>
      match exactly p n next with
      | .error e => .error e
      | .ok (as, last) => .ok (a :: as, last)

/-- Reads up to the end of the stream, leaving out what has no value. -/
def readAll (p : Parser (Option α)) (c : Cursor) : Except Error (List α) :=
  if c.rest.isEmpty then .ok []
  else
    match _h : p.run c with
    | .error e => .error e
    | .ok (a?, next) =>
      match readAll p next with
      | .error e => .error e
      | .ok as => .ok (a?.toList ++ as)
termination_by c.rest.length
decreasing_by exact p.advances _h

theorem many_le (p : Parser (Option α)) {c next : Cursor} {as : List α}
    (h : p.many c = .ok (as, next)) : next.rest.length ≤ c.rest.length := by
  fun_induction many p c generalizing as next with
  | case1 => cases h
  | case2 c last hr => cases h; exact Nat.le_of_lt (p.advances hr)
  | case3 => cases h
  | case4 c a mid hr as' last hm ih =>
    cases h
    exact Nat.le_trans (ih hm) (Nat.le_of_lt (p.advances hr))

theorem exactly_le (p : Parser (Option α)) {n : Nat} {c next : Cursor} {as : List α}
    (h : p.exactly n c = .ok (as, next)) : next.rest.length ≤ c.rest.length := by
  fun_induction exactly p n c generalizing as next with
  | case1 => cases h; exact Nat.le_refl _
  | case2 => cases h
  | case3 => cases h
  | case4 => cases h
  | case5 n c a mid hr as' last hm ih =>
    cases h
    exact Nat.le_trans (ih hm) (Nat.le_of_lt (p.advances hr))

end Parser

end PlistCodec.Opack
