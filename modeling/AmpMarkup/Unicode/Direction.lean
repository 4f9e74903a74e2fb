import AmpMarkup.Unicode.Runs

/-! How characters take part in the direction of writing, and how they join their neighbours. -/

namespace AmpMarkup.Unicode

/-- How a character takes part in the direction of writing. -/
inductive Direction where
  | left
  | right
  | arabicLetter
  | arabicNumber
  | number
  | separator
  | commonSeparator
  | terminator
  | neutral
  | boundary
  | mark
  | other
deriving DecidableEq, Repr, Inhabited

/-- The direction for which a letter stands. -/
def Direction.ofLetter : Char → Direction
  | 'L' => left
  | 'R' => right
  | 'A' => arabicLetter
  | 'N' => arabicNumber
  | 'E' => number
  | 'S' => separator
  | 'C' => commonSeparator
  | 'T' => terminator
  | 'O' => neutral
  | 'B' => boundary
  | 'M' => mark
  | _ => other

/-- Letters for the direction of characters in a row, with their number in base 36. -/
def directionRuns : List String :=
  ["B9W5BeW5O2T3O5SCSC2EaCO6LqO6LqO4B6WBqCOT4O4LO2BO2T2E2OLO3ELO5LnOLvOLchO2L7OeL2OeL5O9LOhM3",
   "4L4O2L8OL5O2LOL32OL3wM7L74OL2O2TRM19RMRM2RM2RMR1kN6O2AT2ACAO2MbA1cMlNaTN2A3MA2tM7NOM6A2M2",
   "OM4A2EaAnMAuMrA2jMbAfR17M9R2O4R3MRoM4RM9RM3RM5R17M3R4A1cN2A6M8A16MoNMwL1jMLML4M8L4ML3M7La",
   "M2LtML1mML4M4L8MLkM2LeT2L7TL2ML2M2L1lML4M2L4M2L2M3L3MLuM2L3MLbM2L1lML4M5LM2L4MLkM2LdTL8M6",
   "LML1mML2MLM4L8ML7M2LbM2LuML1pMLcML11O6TOL5ML3ML1jMLM3L5M3LM4L7M2LbM2LkO7L2ML1mMLfM2LkM2Ls",
   "M2L1lM2L4M4L8MLkM2LtML20ML7M3LML2iML2M7L4TL7M8L2qML2M9LbM7L21M2LrMLMLMO4L1fMeLM5LM2L5MbLM",
   "10L9ML2uM4LM6LM2L2M2LpM2L4M3LgM4LdML2M2L6MLfMLjjM3L1cOaL2uOLhrWLqO2L39M3LtM2LuM2LuM2L1sM2",
   "LM7L8ML2MbL7TLMLiOaL6ObM3BML39M2LyML3aM3L4M2L9ML6M3L4OL3O2L48OyLnM2L2ML1mMLM7LMLML2M8L6Ma",
   "L2ML1cMvL1dM4L1cMLM5LML5ML14M9LcM2LwM4L2M2LM3L1kMLM2L3MLM3L1mM8L2M2L48M3LMdLM7L4ML6ML3M2L",
   "5iM1sLcdOLO3LbO3LdO3LdO3LdO2LWbB3LROoW7CT5OfCOqWB6W4B6EL3E6S2O3LEaS2O3LhT1cMxLfO2LO4LO2La",
   "OLO3L5O6LOLOLOL4TLbO2L4O5L5O4L2OgL15O3L4O3mSTO82L1xOqLO41LpObLlO14EkL26OciLO9fL74OhgL2OwL",
   "O2xL6dO6L4M3L7O7L3jML2oMwO2mLyOqLO2hLcO5yLqOcL4WO4L3OpL9M4L2OL5O2L5O3L2hM2O2L3OL2iOL5gO10",
   "L1lO2L1dOgLsO3L1eOfLcO4L4nO4L2rO2LvOL534O1sLh3kO1jL92O3L2nM4OMaO2LuM2L28M2LeOyL2uOL3dML3M",
   "L4MLpM2LO4MLbT2L1mO4L24M2LqMiLdML12M8LpMbL1aM3L1cML2M4L2M2L13ML1vM6L2M2L2M2LcML8ML1bML1fM",
   "LM3L2M2L5M2LML16M2L8ML37O2L3dML2ML4MLfn3RMRaSR12AdqOiA3jOBwAdO3MgOaL6MgOwCOCLOCO9TO2S2O3L",
   "OT2OL4A3zBLO2T3O5SCSC2EaCO6LqO6LqObL3eT2O3T2LO7LB9O5B2L75OL1qO25L3OdL3OL2kML6aMErL3eM5Lw5",
   "R7zOR69M3RM2R5M4R14M3R4MR4lM2R2aO7RcgA10M4A8NaA6R80NvR18M2RjA1pM3R1cAmMbAvRiM4R3eLML1iMfL",
   "bOkLaML2M2LaM3L1dM4L2M2L7ML1pM3L10M5LM8L1qMLcM2L1gM9LaM4L2ML2nM3L2MLM2L6ML2ML4dML3M8LlM2L",
   "1lM2L3ML11M7L3M5L5fM8L2M3LMLnML2cM6LML4M2LM2L6mM4L6M2LM2LrM2L2dM8L2MLM2LvOdL1qMLML2M6LML2",
   "tM3L2M4LM5L77M9LM2L74M2LML4ML40M4L2M2L4MLwM6L2M2L14M6L2M4L8ML9M6L2M3L1aMdLM2LbaM7LM6L2cMm",
   "L2M7LM2LM2L3eM6L3MLM2LM7LML20M2L3MLML9nM2LbM2L1gM5L5MLML42O8T4OhL40eML6MfLasaM5L1nM7Lt4ML",
   "1rM4L27OLMLf5kM2LB4L3mkM1aL2MnLf4M3L9B8M8L2M7LuM4L1nO2LlO1uM3OL56O2fLp0OL1lOL1lOL1lOL1lOL",
   "aE1eLe8M1jL4M1eL8MLeMLmM5LMfL11sM7LMhL2M7LM2LM5L2sML4gM7LafML1pM4LfTLdoM4LlsR5sM7R31M7Rmd",
   "A28R1sA28R4wA6oO2AeR74O18L4O2sLcOfL2OfLOfLO11LaEbO5LvOL1mO6L1pOL4yO6L4aOrcL4OhL3OdL3O3bL4",
   "O2nL6OcL4OLfOcL4O1kL8OaL6O14L8OuL2O2L26O9gLcOeL2OdL3O9L7O1aLO7L8OeL4O9L7O9L7O43LO1jL11EaL",
   "skB2L1ekeB2L1ekeB2L1ekeB2L1ekeB2L1ekeB2L1ekeB2L1ekeB2L1ekeB2L1ekeB2L1ekeB2L1ekeB2L1ekeB76",
   "M6oB2s0L1bemB2L1ekeB2L1ekeB2"]

/-- Where each run of characters of one direction starts. -/
def directionTable : Runs Direction :=
  .ofLetters Direction.ofLetter (directionRuns.flatMap String.toList)

/-- The direction of a character. -/
def direction (c : Char) : Direction :=
  directionTable.valueAt c.toNat

/-- To which sides a character joins: both, the left, the right, none, or through it. -/
inductive Joining where
  | both
  | left
  | right
  | none
  | transparent
deriving DecidableEq, Repr, Inhabited

/-- The joining for which a letter stands. -/
def Joining.ofLetter : Char → Joining
  | 'D' => both
  | 'L' => left
  | 'R' => right
  | 'T' => transparent
  | _ => none

/-- Letters for the joining of characters in a row, with their number in base 36. -/
def joiningRuns : List String :=
  ["U4tTUgiT34U7nT7U7bT19UTUT2UT2UTU20TbUTU3DUR4DRDRD5R4DdUD7RD2TlUeD2TR3UR3DgRiD12RD2R9DRDRD",
   "2R2URT7U2T6U2T2UT4R2UaD3U2DUfTRTD3R5D4RD9RDRDRD2RTrU2RDbR3DfR2D4RDR2D3R2D6U12TbUpDxT9U9TU",
   "oT4UT9UT3UT5UiRD5R2DRDaRDR3T3U4DUD4URDR2U5RjU3DU2D5RU9T8DaR3URD2R2D6RDfUToUTwU1jTUTU4T8U4",
   "TU3T7UaT2UtTU1mTU4T4U8TUkT2UqTU2T2U1lTU4T2U4T2U2T3U3TUuT2U3TUbT2U1lTU4T5UT2U4TUkT2UmT6UTU",
   "1mTU2TUT4U8TU7T2UbT2UuTU1pTUcTU1eTU3TU1jTUT3U5T3UT4U7T2UbT2UtTU1mTU2TU6TU5T2UkT2UsT2U1lT2",
   "U4T4U8TUkT2UtTU20TU7T3UTU2iTU2T7UcT8U2qTU2T9UbT7U21T2UrTUTUTU1jTeUT5UT2U5TbUT10U9TU2uT4UT",
   "6UT2U2T2UpT2U4T3UgT4UdTU2T2U6TUfTUjjT3UqaT3UtT2UuT2UuT2U1sT2UT7U8TU2TbU9TU15DU3T3UTUgD2hU",
   "cT2DyTDU39T3U4T2U9TU6T3U63T2U2TU1mTUT7UTUTU2T8U6TaU2TU1cTvU1dT4U1cTUT5UTU5TU14T9UcT2UwT4U",
   "2T2UT3U1kTUT2U3TUT3U1mT8U2T2U48T3UTdUT7U4TU6TU3T2U5iT1sUejTU2T2UqT5U1dT5U5T6U2oTxU2daT3U3",
   "xTU2oTwUfeT4U2zT2Un9wT4UTaUwT2U28T2U7kTU3TU4TUpT2U5TUjD1eLU29T2UqTiUdTU12T8UpTbU1aT3U1cTU",
   "2T4U2T2U13TU1vT6U2T2U2T2UcTU8TU1bTU1fTUT3U2T2U5T2UTU16T2U8TU6mTU2TU4TUfn4TUkhTgUgTgU5rTU6",
   "xT3Ue9TU6aTU45T5U1aeT3UT2U5T4U14T3U4TU3kD5RURUR2U2LR5D4LD5RD3RU2RT2U4D4RU40DRDR3D3RD2RDR2",
   "DRUnR4D2U9dLDxRDT4UarT2U28T3U1cD3RDhUTbD3RUrD4R2DcT4U16DUD2R3UDR2D2RD2UDR2DU4RDLU1hTU1iTf",
   "U15TU2T2UaT3U1dT4U2T2U7TU1pT3U10T5UT8U1qTUcT2U1gT9UaT4U2TU2nT3U2TUT2U6TU2TU4dTU3T8UlT2U1l",
   "T2U3TU11T7U3T5U5fT8U2T3UTUnTU2cT6UTU4T2UT2U6mT4U6T2UT2UrT2U2dT8U2TUT2U2yTUTU2T6UTU2tT3U2T",
   "4UT5U77T9UT2U74T2UTU4TU40T4U2T2U4TUwTaU14T6U2T4U8TU9T6U2T3U1aTdUT2UbaT7UT6UTU2aTmU2T7UT2U",
   "T2U3eT6U3TUT2UT7UTU20T2U3TUTU9nT2UbT2U1gT5U5TUTU44tThU6TfUasaT5U1nT7Ut4TU1rT4U29TUf5kT2UT",
   "4U3mkT1aU2TnUf4T3U9TgU2T7UuT4U44T3U1izT1jU4T1eU8TUeTUmT5UTfU11sT7UThU2T7UT2UT5U2sTU4gT7Ua",
   "fTU1pT4Ue4T4UrkT7U15D1wT8UgzatTUuT2oU3kT6oU47bk"]

/-- Where each run of characters of one joining starts. -/
def joiningTable : Runs Joining :=
  .ofLetters Joining.ofLetter (joiningRuns.flatMap String.toList)

/-- How a character joins its neighbours. -/
def joining (c : Char) : Joining :=
  joiningTable.valueAt c.toNat

/-- The marks that take the vowel from a consonant. -/
def viramas : Stretches :=
  .ofText (List.flatMap String.toList
    ["1u5 1 3j 1 3j 1 3j 1 3j 1 3j 1 3j 1 3j 1 31 2 g 1 3g 1 33 1 3j 1 5l 1 50 2 1cp 2 u 1 4d 1",
     " i5 1 6b 1 2t 2 1y 2 3gr 1 o7a 1 11 1 47 1 3y 1 30 1 8l 1 6u 1 imp 1 16u 1 15 1 e 1 1l 1 ",
     "3d 2 3v 1 38 1 50 1 2q 1 6s 1 3j 1 70 1 3j 1 3a 1 38 1 7h 1 77 2 4h 1 2b 1 i 1 29 1 bp 1 ",
     "78 2 29 1 bt 2"])

/-- Whether a character takes the vowel from a consonant. -/
def isVirama (c : Char) : Bool :=
  viramas.contains c.toNat

end AmpMarkup.Unicode
