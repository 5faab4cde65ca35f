import Formula.Token

/-!
  **From source text to tokens.**

  At each place the first of these rules that applies is taken: a comment (a percent sign up to
  and including the end of its line) is dropped; a run of blanks is one token; a backslash takes
  the longest run of ASCII letters after it, or else exactly one character of any kind; a brace is
  structural; any other character stands alone.  A backslash with nothing after it is a character.
  So every text has tokens.
-/

namespace Formula

namespace Token

/-- The blanks of the source: the space, the tab and the two characters that end lines. -/
def isSourceBlank (c : Char) : Bool := c == ' ' || c == '\t' || c == '\n' || c == '\r'

def isLineEnd (c : Char) : Bool := c == '\n' || c == '\r'

/-- What follows the end of the line a comment stands in.  A carriage return and the line feed
    right after it end a line together. -/
def afterComment (text : List Char) : List Char :=
  match text.dropWhile (! isLineEnd ·) with
  | '\r' :: '\n' :: rest => rest
  | _ :: rest => rest
  | [] => []

theorem length_dropWhile_le (p : Char → Bool) (text : List Char) :
    (text.dropWhile p).length ≤ text.length :=
  (List.dropWhile_suffix p).length_le

theorem length_afterComment_le (text : List Char) : (afterComment text).length ≤ text.length := by
  have bound := length_dropWhile_le (! isLineEnd ·) text
  unfold afterComment
  split <;> simp_all <;> omega

/-- The tokens of a source text. -/
def scan : List Char → List Token
  | [] => []
  | c :: rest =>
    if c = '%' then scan (afterComment rest)
    else if isSourceBlank c then .space :: scan (rest.dropWhile isSourceBlank)
    else if c = '\\' then
      match rest with
      | [] => [.char c]
      | d :: more =>
        if Char.isAlpha d then
          .command (String.ofList (c :: d :: more.takeWhile Char.isAlpha)) ::
            scan (more.dropWhile Char.isAlpha)
        else .command (String.ofList [c, d]) :: scan more
    else if c = '{' then .groupStart :: scan rest
    else if c = '}' then .groupEnd :: scan rest
    else .char c :: scan rest
termination_by text => text.length
decreasing_by
  · have := length_afterComment_le rest
    simp only [List.length_cons]; omega
  · have := length_dropWhile_le isSourceBlank rest
    simp only [List.length_cons]; omega
  · have := length_dropWhile_le Char.isAlpha more
    simp only [List.length_cons]; omega
  all_goals simp only [List.length_cons]; omega

end Token

def tokenize (latex : String) : List Token := Token.scan latex.toList

end Formula
