import PlistCodec.Opack.Reader

/-!
# One tree out of a stream

A stream may hold several values.  `merge` puts them together one after the other: arrays are
appended, dictionaries are inserted entry by entry, an array takes any other value as an item, and
in all other cases the new value takes the place of the old one.  `decodeInto` merges into a tree
that is there already and leaves it alone if the stream cannot be read.
-/

namespace PlistCodec.Opack

/-- What a tree, or nothing, becomes with one more value. -/
def merge (out : Option Tree) (value : Tree) : Tree :=
  match out, value with
  | some (.array items), .array more => .array (items ++ more)
  | some (.array items), other => .array (items ++ [other])
  | some (.dict entries), .dict more => .dict (Dict.insertAll entries more)
  | _, other => other

/-- What a tree, or nothing, becomes with several more values. -/
def mergeAll (out : Option Tree) (values : List Tree) : Option Tree :=
  values.foldl (fun out value => some (merge out value)) out

/-- The outcome of decoding a stream into `out`, and what `out` is afterwards. -/
def decodeInto (stream : Bytes) (out : Option Tree) : Except Error Unit × Option Tree :=
  match readValues stream with
  | .error e => (.error e, out)
  | .ok values => (.ok (), mergeAll out values)

/-- The tree that a stream stands for. -/
def decode (stream : Bytes) : Except Error Tree :=
  match readValues stream with
  | .error e => .error e
  | .ok values =>
    match mergeAll none values with
    | some value => .ok value
    | none => .error .empty

end PlistCodec.Opack
