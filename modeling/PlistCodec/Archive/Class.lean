/-!
# Classes of archived objects

The classes of the Foundation framework that archives of plain values are made of.  Some of them
come in two forms, one for objects that may be changed later on; a chain of class names leads from
the form of an object up to the common ancestor of all classes.
-/

namespace PlistCodec.Archive

/-- Whether an object may be changed after it was made. -/
inductive Mutability where
  /-- The object stays as it is. -/
  | fixed
  /-- The object may be changed. -/
  | mutable
deriving DecidableEq, Repr

/-- A class of objects. -/
inductive ObjectClass where
  /-- Texts. -/
  | string
  /-- Lists of objects. -/
  | array
  /-- Objects under keys. -/
  | dictionary
  /-- Byte strings. -/
  | data
  /-- Points in time. -/
  | date
  /-- Addresses, absolute or relative to another one. -/
  | url
deriving DecidableEq, Repr

namespace ObjectClass

/-- The name of a class in its fixed form. -/
def name : ObjectClass → String
  | .string => "NSString"
  | .array => "NSArray"
  | .dictionary => "NSDictionary"
  | .data => "NSData"
  | .date => "NSDate"
  | .url => "NSURL"

/-- The name of a class in its changeable form, if it has one. -/
def mutableName? : ObjectClass → Option String
  | .string => some "NSMutableString"
  | .array => some "NSMutableArray"
  | .dictionary => some "NSMutableDictionary"
  | .data => some "NSMutableData"
  | .date => none
  | .url => none

/-- The class that all others descend from. -/
def commonAncestor : String := "NSObject"

/-- The name of a class in one of its forms. -/
def formName (c : ObjectClass) : Mutability → String
  | .fixed => c.name
  | .mutable => c.mutableName?.getD c.name

/-- The ancestors of a class in one of its forms, the nearest one first. -/
def ancestors (c : ObjectClass) : Mutability → List String
  | .fixed => [commonAncestor]
  | .mutable => if c.mutableName?.isSome then [c.name, commonAncestor] else [commonAncestor]

/-- The class that a name stands for, in either form. -/
def ofName? (text : String) : Option ObjectClass :=
  [string, array, dictionary, data, date, url].find? fun c =>
    text = c.name || some text = c.mutableName?

end ObjectClass

end PlistCodec.Archive
