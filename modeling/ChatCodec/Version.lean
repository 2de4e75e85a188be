/-!
# Protocol versions

A version is a major and a minor number packed into 32 bits, the major number in the high half,
so that versions are ordered as their raw numbers are. Versions of one major number understand
each other.
-/

namespace ChatCodec

/-- A protocol version, major number in the high sixteen bits. -/
structure Version where
  raw : UInt32
  deriving DecidableEq, Repr, Inhabited

/-- Older versions come first. -/
instance : Ord Version where
  compare := compareOn (·.raw)

instance : Std.TransOrd Version :=
  inferInstanceAs (Std.TransCmp (compareOn _))

instance : Std.LawfulEqOrd Version where
  eq_of_compare {a b} h := by
    cases a
    cases b
    exact congrArg _ (Std.LawfulEqOrd.eq_of_compare (α := UInt32) h)

namespace Version

def ofParts (major minor : UInt16) : Version :=
  ⟨major.toUInt32 <<< 16 ||| minor.toUInt32⟩

/-- The version clients announce today. -/
def current : Version := ofParts 1 2

/-- The oldest version still supported. -/
def oldest : Version := ofParts 1 0

def major (v : Version) : UInt16 :=
  (v.raw >>> 16).toUInt16

def minor (v : Version) : UInt16 :=
  (v.raw &&& 0xffff).toUInt16

/-- Two versions understand each other when their major numbers agree. -/
def isCompatible (v w : Version) : Bool :=
  v.major == w.major

/-- The version as people read it, such as `v1.2`. -/
def text (v : Version) : String :=
  s!"v{v.major.toNat}.{v.minor.toNat}"

end Version

end ChatCodec
