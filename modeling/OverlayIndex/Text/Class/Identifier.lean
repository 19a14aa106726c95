/-
Identifier characters: those that continue an identifier.

The class is almost that of the word characters.  Circled letters, enclosing marks and some
compatibility forms are word characters that continue no identifier, and a few signs such as
the middle dot continue an identifier without being word characters.  The class follows edition
18 of the Unicode Standard, two editions after that of the word characters, so the letters,
marks and numbers that came in between belong to it as well.
-/
import OverlayIndex.Text.Class.Word

namespace OverlayIndex

/-- The word characters that continue no identifier. -/
def wordOnlyRanges : List (Nat × Nat) :=
  [(0x37a, 0x37a), (0x488, 0x489), (0x1abe, 0x1abe), (0x20dd, 0x20e0), (0x20e2, 0x20e4),
   (0x24b6, 0x24e9), (0x2e2f, 0x2e2f), (0xa670, 0xa672), (0xfc5e, 0xfc63), (0xfdfa, 0xfdfb),
   (0xfe70, 0xfe70), (0xfe72, 0xfe72), (0xfe74, 0xfe74), (0xfe76, 0xfe76), (0xfe78, 0xfe78),
   (0xfe7a, 0xfe7a), (0xfe7c, 0xfe7c), (0xfe7e, 0xfe7e), (0x1f130, 0x1f149), (0x1f150, 0x1f169),
   (0x1f170, 0x1f189)]

/-- The signs that continue an identifier and are no word characters. -/
def identifierOnlyRanges : List (Nat × Nat) :=
  [(0xb7, 0xb7), (0x387, 0x387), (0x1369, 0x1371), (0x19da, 0x19da), (0x2118, 0x2118),
   (0x212e, 0x212e), (0x30fb, 0x30fb), (0xff65, 0xff65)]

/-- The characters of editions 17 and 18 that continue an identifier. -/
def laterIdentifierRanges : List (Nat × Nat) :=
  [(0x558, 0x558), (0x58b, 0x58c), (0x5c8, 0x5c9), (0x88f, 0x88f), (0xb53, 0xb54),
   (0xc5c, 0xc5c), (0xcdc, 0xcdc), (0x1acf, 0x1af0), (0x208f, 0x208f), (0x209d, 0x209f),
   (0xa7ce, 0xa7cf), (0xa7d2, 0xa7d2), (0xa7d4, 0xa7d4), (0xa7dd, 0xa7dd), (0xa7e2, 0xa7e2),
   (0xa7f1, 0xa7f1), (0xab6c, 0xab6d), (0x107bb, 0x107bf), (0x10940, 0x10959),
   (0x10ec5, 0x10ec7), (0x10ecb, 0x10ecf), (0x10ed9, 0x10eee), (0x10ef0, 0x10efb),
   (0x11b0a, 0x11b0a), (0x11b60, 0x11b67), (0x11db0, 0x11ddb), (0x11de0, 0x11de9),
   (0x11df0, 0x11df1), (0x1246f, 0x1246f), (0x12475, 0x1247f), (0x12550, 0x12686),
   (0x16ea0, 0x16eb8), (0x16ebb, 0x16ed3), (0x16ff2, 0x16ff6), (0x187f8, 0x187ff),
   (0x18cd6, 0x18cda), (0x18d09, 0x18d20), (0x18d80, 0x18df2), (0x18e00, 0x19191),
   (0x191a0, 0x191d2), (0x1b123, 0x1b128), (0x1b168, 0x1b168), (0x1d127, 0x1d128),
   (0x1d250, 0x1d252), (0x1d25b, 0x1d25c), (0x1d25f, 0x1d25f), (0x1d280, 0x1d281),
   (0x1d6a6, 0x1d6a6), (0x1df1f, 0x1df24), (0x1df2b, 0x1df81), (0x1df90, 0x1df96),
   (0x1dfcd, 0x1dfff), (0x1e6c0, 0x1e6de), (0x1e6e0, 0x1e6f5), (0x1e6fe, 0x1e6ff),
   (0x2b73a, 0x2b73f), (0x2b81e, 0x2b81e), (0x2cea2, 0x2cead), (0x323b0, 0x33479),
   (0x3d000, 0x3fc3f)]

/-- A character that continues an identifier. -/
def isIdentifier (c : Char) : Bool :=
  isWord c && !inRanges wordOnlyRanges c.toNat || inRanges identifierOnlyRanges c.toNat
    || inRanges laterIdentifierRanges c.toNat

end OverlayIndex
