import HeaderAtlas.Source.Continuation
/-!
# Comments and literals

Stretches of a source file in which no directive can begin. Each function takes what follows the
opening mark and gives what is left after the stretch; a stretch that is never closed runs to the
end of the file.
-/

set_option autoImplicit false

namespace HeaderAtlas.Source

def slash : UInt8 := 0x2F
def star : UInt8 := 0x2A
def doubleQuote : UInt8 := 0x22
def singleQuote : UInt8 := 0x27

/-- A line comment ends before the first line feed that belongs to no continuation. `back` is what
was read of the current line, backwards. -/
def afterLineCommentFrom (back : Bytes) : Bytes → Bytes
  | [] => []
  | b :: rest =>
    if b = lf then
      -- behind a continuation the comment goes on, with a line that is still empty
      if isContinued back then afterLineCommentFrom [] rest else b :: rest
    else afterLineCommentFrom (b :: back) rest

/-- The comment begins behind its two slashes, so nothing of its line has been read that could continue it. -/
def afterLineComment (t : Bytes) : Bytes := afterLineCommentFrom [] t

/-- A block comment ends after the first asterisk that a slash follows. Comments do not nest, and a continuation
between the two bytes keeps the comment open. -/
def afterBlockComment : Bytes → Bytes
  | [] => []
  | b :: rest =>
    if b = star ∧ rest.head? = some slash then rest.tail else afterBlockComment rest

/-- A literal ends after the first closing quote that no backslash escapes. A line feed does not end it: a quote that
is never closed hides the rest of the file. -/
def afterLiteral (quote : UInt8) : Bytes → Bytes
  | [] => []
  | b :: rest =>
    if b = backslash then
      match rest with
      | [] => []
      | _ :: after => afterLiteral quote after
    else if b = quote then rest
    else afterLiteral quote rest

/-- What is left never exceeds what was there. The reader of a file relies on this for its own termination, as it does
on the bounds below. -/
theorem length_afterLineCommentFrom_le (back t : Bytes) :
    (afterLineCommentFrom back t).length ≤ t.length := by
  fun_induction afterLineCommentFrom back t with
  | case1 => simp
  | case2 => simp only [List.length_cons]; omega
  | case3 => simp
  | case4 => simp only [List.length_cons]; omega

theorem length_afterLineComment_le (t : Bytes) : (afterLineComment t).length ≤ t.length :=
  length_afterLineCommentFrom_le [] t

theorem length_afterBlockComment_le (t : Bytes) : (afterBlockComment t).length ≤ t.length := by
  induction t with
  | nil => simp [afterBlockComment]
  | cons b rest ih =>
    simp only [afterBlockComment]
    split
    · simp only [List.length_tail, List.length_cons]
      omega
    · simp only [List.length_cons]
      omega

theorem length_afterLiteral_le (quote : UInt8) (t : Bytes) :
    (afterLiteral quote t).length ≤ t.length := by
  fun_induction afterLiteral quote t with
  | case1 => simp
  | case2 => simp
  | case3 _ after ih =>
    simp only [List.length_cons]
    omega
  | case4 => simp
  | case5 b rest _ _ ih =>
    simp only [List.length_cons]
    omega

end HeaderAtlas.Source
