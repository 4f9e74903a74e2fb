import AmpMarkup.Text.Basic

/-! The two sets of blank characters in use: the five that separate the parts of markup and of a
stylesheet, and the larger Unicode set that decides whether a document is blank. -/

namespace AmpMarkup

/-- Tab, line feed, form feed, carriage return and space. -/
def isSpace (c : Char) : Bool :=
  c == ' ' || c == '\t' || c == '\n' || c == '\x0c' || c == '\r'

/-- The characters with the Unicode property `White_Space`. -/
def isBlank (c : Char) : Bool :=
  let n := c.toNat
  (9 ≤ n && n ≤ 13) || n == 0x20 || n == 0x85 || n == 0xA0 || n == 0x1680 ||
    (0x2000 ≤ n && n ≤ 0x200A) || n == 0x2028 || n == 0x2029 || n == 0x202F || n == 0x205F ||
    n == 0x3000

theorem isBlank_of_isSpace {c : Char} (h : isSpace c = true) : isBlank c = true := by
  simp only [isSpace, Bool.or_eq_true, beq_iff_eq] at h
  rcases h with (((h | h) | h) | h) | h <;> subst h <;> decide

/-- Whether a text holds nothing but blank characters. -/
def Text.blank (t : Text) : Bool :=
  t.all isBlank

/-- The text without leading and trailing blank characters. -/
def Text.trimBlank (t : Text) : Text :=
  t.trim isBlank

/-- The text without leading and trailing markup spaces. -/
def Text.trimSpace (t : Text) : Text :=
  t.trim isSpace

end AmpMarkup
