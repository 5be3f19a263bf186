import HeaderAtlas.Source.Skipped
/-!
# Include directives

What may follow a `#` at the beginning of a logical line: blanks, the word `include`, blanks and a
header name in angle brackets or quotes. Continuations may stand between any two of these and inside
the word and the name; they are no part of the header.
-/

set_option autoImplicit false

namespace HeaderAtlas.Source

/-- An include directive: the header as it is written, and whether in angle brackets. The header is kept as bytes,
since it names a file. -/
structure Directive where
  header : Bytes
  angled : Bool
  deriving DecidableEq, Repr

/-! ## Parts -/

/-- Blanks and continuations in any order. A backslash that begins no continuation stays, and nothing is skipped
behind it. -/
def skipBlanks : Bytes → Bytes
  | [] => []
  | b :: rest =>
    if isBlank b then skipBlanks rest
    else if b = backslash then
      match _h : continuation? rest with
      | some after => skipBlanks after
      | none => b :: rest
    else b :: rest
termination_by t => t.length
decreasing_by
  · simp
  · have := length_continuation?_lt _h
    simp only [List.length_cons]
    omega

/-- Continuations alone, for within a word: blanks would end it. -/
def skipContinuations : Bytes → Bytes
  | [] => []
  | b :: rest =>
    if b = backslash then
      match _h : continuation? rest with
      | some after => skipContinuations after
      | none => b :: rest
    else b :: rest
termination_by t => t.length
decreasing_by
  have := length_continuation?_lt _h
  simp only [List.length_cons]
  omega

/-- What follows a word, before each letter of which there may be continuations. What follows is not looked at, so a
longer word begins with this one too. -/
def afterWord? : Bytes → Bytes → Option Bytes
  | [], t => some t
  | letter :: letters, t =>
    match skipContinuations t with
    | [] => none
    | b :: rest => if b = letter then afterWord? letters rest else none

def includeWord : Bytes := [0x69, 0x6E, 0x63, 0x6C, 0x75, 0x64, 0x65]

/-- The header name before `closer`, and what follows. A backslash that begins no continuation
belongs to the name together with the byte after it. A name that is not closed on its logical line
is none, and reading goes on at the line feed. -/
def headerName (closer : UInt8) : Bytes → Option Bytes × Bytes
  | [] => (none, [])
  | b :: rest =>
    if b = backslash then
      match _h : continuation? rest with
      | some after => headerName closer after
      | none =>
        match rest with
        | [] => (none, [])
        | c :: after =>
          -- the two bytes stay in the name as they are, so an escaped mark does not close it
          let (name, left) := headerName closer after
          (name.map (b :: c :: ·), left)
    else if b = lf then (none, b :: rest)
    else if b = closer then (some [], rest)
    else
      let (name, left) := headerName closer rest
      (name.map (b :: ·), left)
termination_by t => t.length
decreasing_by
  · have := length_continuation?_lt _h
    simp only [List.length_cons]
    omega
  · simp only [List.length_cons]
    omega
  · simp

/-! ## The directive -/

/-- The header name that begins with one of the opening marks, and what follows. Where there is no such mark nothing
is taken. -/
def headerPart : Bytes → Option Directive × Bytes
  | [] => (none, [])
  | b :: rest =>
    if b = 0x3C then
      let (name, left) := headerName 0x3E rest
      (name.map (⟨·, true⟩), left)
    else if b = doubleQuote then
      let (name, left) := headerName doubleQuote rest
      (name.map (⟨·, false⟩), left)
    else (none, b :: rest)

/-- The directive that follows a `#`, if it is an include, and where reading goes on. Where it is
none, that is right after the blanks, or at the end of an unclosed name. -/
def directive (t : Bytes) : Option Directive × Bytes :=
  let word := skipBlanks t
  match afterWord? includeWord word with
  | none => (none, word)
  | some rest => headerPart (skipBlanks rest)

/-! ## Lengths -/

theorem length_skipBlanks_le (t : Bytes) : (skipBlanks t).length ≤ t.length := by
  fun_induction skipBlanks t with
  | case1 => simp
  | case2 => simp only [List.length_cons]; omega
  | case3 rest after h _ ih =>
    have := length_continuation?_lt h
    simp only [List.length_cons]
    omega
  | case4 => simp
  | case5 => simp

theorem length_skipContinuations_le (t : Bytes) : (skipContinuations t).length ≤ t.length := by
  fun_induction skipContinuations t with
  | case1 => simp
  | case2 rest after h ih =>
    have := length_continuation?_lt h
    simp only [List.length_cons]
    omega
  | case3 => simp
  | case4 => simp

theorem length_afterWord?_le {word t rest : Bytes} (h : afterWord? word t = some rest) :
    rest.length ≤ t.length := by
  induction word generalizing t with
  | nil =>
    simp only [afterWord?, Option.some.injEq] at h
    simp [h]
  | cons letter letters ih =>
    simp only [afterWord?] at h
    have hle := length_skipContinuations_le t
    split at h
    · simp at h
    · rename_i b after hs
      split at h
      · have := ih h
        simp only [hs, List.length_cons] at hle
        omega
      · simp at h

theorem length_headerName_le (closer : UInt8) (t : Bytes) :
    (headerName closer t).2.length ≤ t.length := by
  fun_induction headerName closer t with
  | case1 => simp
  | case2 rest after h ih =>
    have := length_continuation?_lt h
    simp only [List.length_cons]
    omega
  | case3 => simp
  | case4 c after _ name left hn ih =>
    simp only [hn, List.length_cons] at ih ⊢
    omega
  | case5 => simp
  | case6 => simp
  | case7 b rest _ _ _ name left hn ih =>
    simp only [hn, List.length_cons] at ih ⊢
    omega

theorem length_headerPart_le (t : Bytes) : (headerPart t).2.length ≤ t.length := by
  cases t with
  | nil => simp [headerPart]
  | cons b rest =>
    simp only [headerPart]
    split
    · have := length_headerName_le 0x3E rest
      simp only [List.length_cons]
      omega
    · split
      · have := length_headerName_le doubleQuote rest
        simp only [List.length_cons]
        omega
      · simp

/-- A directive takes from what it is given and never adds to it. Nothing stronger holds: after a `#` at the end of a
file there is nothing to take. -/
theorem length_directive_le (t : Bytes) : (directive t).2.length ≤ t.length := by
  have h := length_skipBlanks_le t
  simp only [directive]
  split
  · exact h
  · rename_i rest hw
    have h1 := length_afterWord?_le hw
    have h2 := length_skipBlanks_le rest
    have h3 := length_headerPart_le (skipBlanks rest)
    omega

end HeaderAtlas.Source
