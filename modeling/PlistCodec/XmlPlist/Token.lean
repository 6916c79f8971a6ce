import PlistCodec.Text.Utf8

/-!
# XML tokens

The reader of XML property lists sees a document as a row of tokens: start tags and end tags by
their names, runs of text, references such as `&amp;`, and *asides*, which say nothing: comments,
processing instructions, the declaration, the document type and character data sections.  A tag
that ends with `/>` is both a start tag and an end tag.

Markup is recognised byte by byte; only the text in it is decoded, where it is used.
-/

namespace PlistCodec.XmlPlist

/-- A piece of an XML document. -/
inductive Token where
  /-- A start tag. -/
  | start (name : Bytes)
  /-- An end tag. -/
  | stop (name : Bytes)
  /-- A tag that starts and ends an element. -/
  | empty (name : Bytes)
  /-- Text without markup. -/
  | text (bytes : Bytes)
  /-- What stands between `&` and `;`. -/
  | reference (name : Bytes)
  /-- Something that says nothing about the property list. -/
  | aside
deriving DecidableEq, Repr

/-! ## Bytes of markup -/

/-- The byte of an ASCII character. -/
def ascii (c : Char) : UInt8 := UInt8.ofNat c.toNat

/-- Whether a byte is white space in markup. -/
def isSpace (b : UInt8) : Bool :=
  b = ascii ' ' || b = ascii '\t' || b = ascii '\n' || b = ascii '\r'

/-- Whether a byte is a quotation mark. -/
def isQuote (b : UInt8) : Bool := b = ascii '"' || b = ascii '\''

/-- The quotation mark that is open behind a byte, given the one that is open in front of it. -/
def quoteBehind (quote : Option UInt8) (b : UInt8) : Option UInt8 :=
  match quote with
  | some q => if b = q then none else some q
  | none => if isQuote b then some b else none

/-! ## Finding the end of a token -/

/-- What stands before and behind the first occurrence of `mark`; `seen` is what was passed so far,
in reverse. -/
def breakFrom (mark : Bytes) : (seen : Bytes) → Bytes → Option (Bytes × Bytes)
  | _, [] => none
  | seen, b :: bs =>
    if mark.isPrefixOf (b :: bs) then some (seen.reverse, (b :: bs).drop mark.length)
    else breakFrom mark (b :: seen) bs

/-- What stands before and behind the first occurrence of `mark`. -/
def breakOn (mark : String) (bs : Bytes) : Option (Bytes × Bytes) :=
  breakFrom (Bytes.ofString mark) [] bs

/-- What stands before and behind the first `>` outside quotation marks; `quote` is the mark that
is open. -/
def breakTag : (seen : Bytes) → (quote : Option UInt8) → Bytes → Option (Bytes × Bytes)
  | _, _, [] => none
  | seen, quote, b :: bs =>
    if quote.isNone && b = ascii '>' then some (seen.reverse, bs)
    else breakTag (b :: seen) (quoteBehind quote b) bs

theorem breakFrom_le {mark seen bs before behind : Bytes}
    (h : breakFrom mark seen bs = some (before, behind)) : behind.length ≤ bs.length := by
  induction bs generalizing seen with
  | nil => simp [breakFrom] at h
  | cons b bs ih =>
    unfold breakFrom at h
    split at h
    · simp only [Option.some.injEq, Prod.mk.injEq] at h
      rw [← h.2, List.length_drop]
      exact Nat.sub_le _ _
    · exact Nat.le_succ_of_le (ih h)

theorem breakTag_le {seen bs before behind : Bytes} {quote : Option UInt8}
    (h : breakTag seen quote bs = some (before, behind)) : behind.length ≤ bs.length := by
  induction bs generalizing seen quote with
  | nil => simp [breakTag] at h
  | cons b bs ih =>
    unfold breakTag at h
    split at h
    · simp only [Option.some.injEq, Prod.mk.injEq] at h
      rw [← h.2]
      exact Nat.le_succ _
    · exact Nat.le_succ_of_le (ih h)

/-! ## Document types

A document type ends at the first `>` that is neither quoted nor in the internal subset, which
stands between `[` and `]`.  In the subset a `]` counts unless it is in a declaration, in a comment
or in a processing instruction.
-/

/-- The part of a document type in which a byte stands. -/
inductive DoctypePart where
  /-- In front of the subset; `quote` is the quotation mark that is open. -/
  | heading (quote : Option UInt8)
  /-- In the subset, outside its markup. -/
  | subset
  /-- In a declaration of the subset that may hold quoted text. -/
  | declaration (quote : Option UInt8)
  /-- In markup of the subset that ends with the next `>`. -/
  | plain
  /-- In a comment of the subset, of whose opening mark `opening` bytes are still to come. -/
  | comment (opening : Nat)
  /-- In a processing instruction of the subset. -/
  | instruction
  /-- Behind the subset. -/
  | tail
deriving DecidableEq, Repr

/-- What the declarations that may hold quoted text begin with, behind their `<`. -/
def quotingDeclarations : List String := ["!ENTITY", "!ATTLIST", "!NOTATION"]

namespace DoctypePart

/-- The part behind a `<` in the subset, given what follows that byte. -/
def opened (rest : Bytes) : DoctypePart :=
  let starts := fun word => Bytes.startsWith rest (Bytes.ofString word)
  if starts "?" then .instruction
  else if starts "!--" then .comment 3
  else if starts "!ELEMENT" then .plain
  else if quotingDeclarations.any starts then .declaration none
  else .subset

/-- The part behind a byte, given what follows that byte.  A comment and a processing instruction
turn plain where their closing marks begin. -/
def behind (b : UInt8) (rest : Bytes) : DoctypePart → DoctypePart
  | .heading quote =>
    if quote.isNone && b = ascii '[' then .subset else .heading (quoteBehind quote b)
  | .subset =>
    if b = ascii '<' then opened rest else if b = ascii ']' then .tail else .subset
  | .declaration quote =>
    if quote.isNone && b = ascii '>' then .subset else .declaration (quoteBehind quote b)
  | .plain => if b = ascii '>' then .subset else .plain
  | .comment (opening + 1) => .comment opening
  | .comment 0 =>
    if Bytes.startsWith (b :: rest) (Bytes.ofString "-->") then .plain else .comment 0
  | .instruction =>
    if Bytes.startsWith (b :: rest) (Bytes.ofString "?>") then .plain else .instruction
  | .tail => .tail

/-- Whether a `>` in this part closes the document type. -/
def canClose : DoctypePart → Bool
  | .heading quote => quote.isNone
  | .tail => true
  | _ => false

end DoctypePart

/-- What stands before and behind the `>` that closes a document type. -/
def breakDoctype : (seen : Bytes) → DoctypePart → Bytes → Option (Bytes × Bytes)
  | _, _, [] => none
  | seen, part, b :: bs =>
    if part.canClose && b = ascii '>' then some (seen.reverse, bs)
    else breakDoctype (b :: seen) (part.behind b bs) bs

theorem breakDoctype_le {seen bs before behind : Bytes} {part : DoctypePart}
    (h : breakDoctype seen part bs = some (before, behind)) : behind.length ≤ bs.length := by
  induction bs generalizing seen part with
  | nil => simp [breakDoctype] at h
  | cons b bs ih =>
    unfold breakDoctype at h
    split at h
    · simp only [Option.some.injEq, Prod.mk.injEq] at h
      rw [← h.2]
      exact Nat.le_succ _
    · exact Nat.le_succ_of_le (ih h)

/-! ## Tokens -/

/-- The token of a start tag, given what stands between `<` and `>`. -/
def startToken (content : Bytes) : Token :=
  let name := content.takeWhile fun b => !isSpace b
  match content.getLast? with
  | some last =>
    if last = ascii '/' then
      let inner := content.dropLast
      .empty (inner.takeWhile fun b => !isSpace b)
    else .start name
  | none => .start name

/-- The token of an end tag, given what stands between `</` and `>`. -/
def stopToken (content : Bytes) : Token :=
  .stop (content.reverse.dropWhile isSpace).reverse

/-- An aside and what follows it. -/
def aside (broken : Option (Bytes × Bytes)) : Option (Token × Bytes) :=
  broken.map fun (_, behind) => (.aside, behind)

/-- Whether a byte string begins with an ASCII word, in any case of its letters. -/
def startsWithWord (word : String) (bs : Bytes) : Bool :=
  let lower := fun b : UInt8 => if ascii 'A' ≤ b && b ≤ ascii 'Z' then b + 32 else b
  (bs.take word.length).map lower = Bytes.ofString word

/-- A document type, which has to have a name. -/
def doctype (bs : Bytes) : Option (Token × Bytes) :=
  if startsWithWord "doctype" bs then
    match breakDoctype [] (.heading none) bs with
    | some (content, behind) =>
      if (content.drop 7).all isSpace then none else some (.aside, behind)
    | none => none
  else none

/-- A processing instruction, given what follows its `<`.  The question mark that opens it may not
be the one that closes it. -/
def instruction (bs : Bytes) : Option (Token × Bytes) :=
  (breakOn "?>" bs).bind fun (content, behind) =>
    if content.isEmpty then none else some (.aside, behind)

/-- The token that begins with `<`, given what follows that byte. -/
def markup (bs : Bytes) : Option (Token × Bytes) :=
  match bs with
  | [] => none
  | b :: rest =>
    if b = ascii '/' then
      (breakTag [] none rest).map fun (content, behind) => (stopToken content, behind)
    else if b = ascii '?' then instruction (b :: rest)
    else if b = ascii '!' then
      if Bytes.startsWith rest (Bytes.ofString "--") then aside (breakOn "-->" (rest.drop 2))
      else if Bytes.startsWith rest (Bytes.ofString "[CDATA[") then
        aside (breakOn "]]>" (rest.drop 7))
      else doctype rest
    else (breakTag [] none (b :: rest)).map fun (content, behind) => (startToken content, behind)

/-- The reference that begins with `&`, given what follows that byte.  It ends at the first `;` and
holds no markup. -/
def reference (bs : Bytes) : Option (Token × Bytes) :=
  (breakOn ";" bs).bind fun (name, behind) =>
    if name.any fun b => b = ascii '<' || b = ascii '&' then none
    else some (.reference name, behind)

/-- The first token of a document that is not at its end, and what follows it. -/
def token (b : UInt8) (bs : Bytes) : Option (Token × Bytes) :=
  if b = ascii '<' then markup bs
  else if b = ascii '&' then reference bs
  else
    let plain := fun b : UInt8 => b != ascii '<' && b != ascii '&'
    some (.text (b :: bs.takeWhile plain), bs.dropWhile plain)

theorem aside_le {broken : Option (Bytes × Bytes)} {bound : Nat}
    (h : ∀ before behind, broken = some (before, behind) → behind.length ≤ bound)
    {t : Token} {rest : Bytes} (ha : aside broken = some (t, rest)) : rest.length ≤ bound := by
  simp only [aside, Option.map_eq_some_iff, Prod.exists, Prod.mk.injEq] at ha
  obtain ⟨before, behind, hb, _, rfl⟩ := ha
  exact h before behind hb

theorem markup_le {bs rest : Bytes} {t : Token} (h : markup bs = some (t, rest)) :
    rest.length ≤ bs.length := by
  have dropped : ∀ (n : Nat) (xs : Bytes), (xs.drop n).length ≤ xs.length := by
    intro n xs; rw [List.length_drop]; exact Nat.sub_le _ _
  unfold markup at h
  split at h
  · cases h
  · next b bs =>
    split at h
    · simp only [Option.map_eq_some_iff, Prod.exists, Prod.mk.injEq] at h
      obtain ⟨_, _, hb, _, rfl⟩ := h
      exact Nat.le_succ_of_le (breakTag_le hb)
    · split at h
      · simp only [instruction, Option.bind_eq_some_iff, Prod.exists] at h
        obtain ⟨_, _, hb, hr⟩ := h
        split at hr
        · cases hr
        · simp only [Option.some.injEq, Prod.mk.injEq] at hr
          obtain ⟨_, rfl⟩ := hr
          exact breakFrom_le hb
      · split at h
        · split at h
          · exact Nat.le_succ_of_le
              (Nat.le_trans (aside_le (fun _ _ hb => breakFrom_le hb) h) (dropped 2 bs))
          · split at h
            · exact Nat.le_succ_of_le
                (Nat.le_trans (aside_le (fun _ _ hb => breakFrom_le hb) h) (dropped 7 bs))
            · unfold doctype at h
              split at h
              · split at h
                · next hb =>
                  split at h
                  · cases h
                  · simp only [Option.some.injEq, Prod.mk.injEq] at h
                    obtain ⟨_, rfl⟩ := h
                    exact Nat.le_succ_of_le (breakDoctype_le hb)
                · cases h
              · cases h
        · simp only [Option.map_eq_some_iff, Prod.exists, Prod.mk.injEq] at h
          obtain ⟨_, _, hb, _, rfl⟩ := h
          exact breakTag_le hb

/-- A token takes at least its first byte. -/
theorem token_le {b : UInt8} {bs rest : Bytes} {t : Token} (h : token b bs = some (t, rest)) :
    rest.length ≤ bs.length := by
  unfold token at h
  split at h
  · exact markup_le h
  · split at h
    · simp only [reference, Option.bind_eq_some_iff, Prod.exists] at h
      obtain ⟨_, _, hb, hr⟩ := h
      split at hr
      · cases hr
      · simp only [Option.some.injEq, Prod.mk.injEq] at hr
        obtain ⟨_, rfl⟩ := hr
        exact breakFrom_le hb
    · simp only [Option.some.injEq, Prod.mk.injEq] at h
      rw [← h.2]
      exact (List.dropWhile_sublist _).length_le

/-- The tokens of a document; `done` are the ones in front of it, in reverse. -/
def tokensFrom (done : List Token) (document : Bytes) : Option (List Token) :=
  match document with
  | [] => some done.reverse
  | b :: bs =>
    match _h : token b bs with
    | none => none
    | some (t, rest) => tokensFrom (t :: done) rest
termination_by document.length
decreasing_by exact Nat.lt_succ_of_le (token_le _h)

/-- The tokens of a document, if its markup is sound. -/
def tokens? (document : Bytes) : Option (List Token) := tokensFrom [] document

end PlistCodec.XmlPlist
