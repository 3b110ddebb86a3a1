/-!
# Replacing in text

Occurrences are taken from left to right and do not overlap. The empty pattern occurs in front of
every character and at the end.
-/

namespace BlockLang.Text

/-- Replaces a nonempty pattern; `skip` characters still belong to the occurrence last found. -/
def replaceFound (pattern replacement : List Char) : Nat → List Char → List Char
  | _, [] => []
  | skip + 1, _ :: l => replaceFound pattern replacement skip l
  | 0, c :: l =>
    if pattern.isPrefixOf (c :: l) then
      replacement ++ replaceFound pattern replacement (pattern.length - 1) l
    else c :: replaceFound pattern replacement 0 l

/-- Replaces every occurrence of the pattern. -/
def replaceAll (pattern replacement l : List Char) : List Char :=
  if pattern.isEmpty then replacement ++ l.flatMap (· :: replacement)
  else replaceFound pattern replacement 0 l

end BlockLang.Text
