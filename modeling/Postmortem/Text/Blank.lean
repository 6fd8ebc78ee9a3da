/-!
# Blanks

The characters with the White_Space property, and what separates by them: trimming and splitting.
-/

set_option autoImplicit false

namespace Postmortem.Text

/-- Whether a character is white space: the ASCII controls U+0009 to U+000D, the space, and the
blanks beyond ASCII. -/
def isBlank (c : Char) : Bool :=
  let n := c.toNat
  (0x09 ≤ n && n ≤ 0x0d) || n == 0x20 || n == 0x85 || n == 0xa0 || n == 0x1680 ||
    (0x2000 ≤ n && n ≤ 0x200a) || n == 0x2028 || n == 0x2029 || n == 0x202f || n == 0x205f ||
    n == 0x3000

def trimBlanks (cs : List Char) : List Char :=
  ((cs.dropWhile isBlank).reverse.dropWhile isBlank).reverse

/-- The longest runs without a blank, in order. -/
def splitBlanks : List Char → List (List Char)
  | [] => []
  | c :: rest =>
    if isBlank c then splitBlanks rest
    else (c :: rest.takeWhile (!isBlank ·)) :: splitBlanks (rest.dropWhile (!isBlank ·))
termination_by cs => cs.length
decreasing_by
  · simp
  · have := (List.dropWhile_sublist (p := (!isBlank ·)) (l := rest)).length_le
    simp only [List.length_cons]
    omega

end Postmortem.Text
