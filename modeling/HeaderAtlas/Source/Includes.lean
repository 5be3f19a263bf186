import HeaderAtlas.Source.Directive
/-!
# The includes of a source file

One pass over the bytes of a file reports its include directives in order. Comments and literals are
passed over and continuations glue lines; nothing is preprocessed, so directives in disabled parts
are reported too. The pass knows only whether it is at the beginning of a logical line, apart from
what is left of the file.
-/

set_option autoImplicit false

namespace HeaderAtlas.Source

def numberSign : UInt8 := 0x23

/-- The directives from here on; `lineStart` says whether nothing but white space and comments stands
before on the logical line. -/
def includesFrom (lineStart : Bool) : Bytes → List Directive
  | [] => []
  | b :: rest =>
    if b = backslash then
      match _h : continuation? rest with
      | some after => includesFrom lineStart after
      | none => includesFrom false rest
    else if b = lf then includesFrom true rest
    else if isSpace b then includesFrom lineStart rest
    else if b = slash ∧ rest.head? = some slash then
      -- a comment counts as white space: a directive may follow it on its line
      includesFrom lineStart (afterLineComment rest.tail)
    else if b = slash ∧ rest.head? = some star then
      includesFrom lineStart (afterBlockComment rest.tail)
    else if b = doubleQuote ∨ b = singleQuote then includesFrom false (afterLiteral b rest)
    else if b = numberSign ∧ lineStart then
      (directive rest).1.toList ++ includesFrom false (directive rest).2
    else includesFrom false rest
termination_by t => t.length
decreasing_by
  · have := length_continuation?_lt _h
    simp only [List.length_cons]
    omega
  · simp
  · simp
  · simp
  · have := length_afterLineComment_le rest.tail
    simp only [List.length_tail, List.length_cons] at this ⊢
    omega
  · have := length_afterBlockComment_le rest.tail
    simp only [List.length_tail, List.length_cons] at this ⊢
    omega
  · have := length_afterLiteral_le b rest
    simp only [List.length_cons]
    omega
  · have := length_directive_le rest
    simp only [List.length_cons]
    omega
  · simp

/-- The include directives of a file, in file order and as often as they appear. -/
def includes (contents : Bytes) : List Directive := includesFrom true contents

end HeaderAtlas.Source
