import Mathlib

/-!
# The authority of a URL

What stands between the scheme of a URL and its path, without a user.
-/

namespace Hop

/-- What stands behind the first `://`. -/
def afterScheme : List Char → Option (List Char)
  | [] => none
  | c :: cs => if "://".toList <+: c :: cs then some (cs.drop 2) else afterScheme cs

/-- What stands behind the last `@`, or all of it. -/
def withoutUser (s : List Char) : List Char := (s.reverse.takeWhile (· ≠ '@')).reverse

/-- The host of a URL, with its port. -/
def authority (url : String) : Option (List Char) :=
  (afterScheme url.toList).map fun rest =>
    withoutUser (rest.takeWhile fun c => c ≠ '/' ∧ c ≠ '?' ∧ c ≠ '#')

end Hop
