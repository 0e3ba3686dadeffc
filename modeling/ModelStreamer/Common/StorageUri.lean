import Mathlib.Tactic.Common

/-!
# Object-storage URIs

The parser behind {lit}`StorageUri`: the whole text must match
{lit}`^(s3|gs|az)://([^/]+)/(.+)$`.  The bucket stops at the first slash, so the match is
unique, and the path may not hold a line terminator, which the dot of the expression does
not match.
-/

namespace ModelStreamer
namespace Common

/-- The three schemes the expression accepts. -/
inductive Scheme where
  | s3
  | gs
  | az
deriving DecidableEq, Repr

/-- {lit}`StorageUri`: the parts of an accepted URI. -/
structure StorageUri where
  scheme : Scheme
  bucket : List Char
  path : List Char
deriving DecidableEq, Repr

/-- The scheme named by the two characters before the colon. -/
def parseScheme : Char → Char → Option Scheme
  | 's', '3' => some .s3
  | 'g', 's' => some .gs
  | 'a', 'z' => some .az
  | _, _ => none

/-- Characters the dot of the expression matches. -/
def matchesDot (c : Char) : Bool :=
  c != '\n' && c != '\r'

/-- The bucket and path after the scheme. -/
def parseLocation (scheme : Scheme) (text : List Char) : Option StorageUri :=
  let bucket := text.takeWhile (· != '/')
  match text.dropWhile (· != '/') with
  | '/' :: path =>
      if bucket ≠ [] ∧ path ≠ [] ∧ path.all matchesDot then some { scheme, bucket, path }
      else none
  | _ => none

/-- The constructor of {lit}`StorageUri`; {lit}`none` is its exception. -/
def StorageUri.parse : List Char → Option StorageUri
  | a :: b :: ':' :: '/' :: '/' :: text => do
      let scheme ← parseScheme a b
      parseLocation scheme text
  | _ => none

end Common
end ModelStreamer
