import AmpMarkup.Unicode.Runs

/-! The scripts that characters belong to. -/

namespace AmpMarkup.Unicode

/-- The names of the scripts, in the order of their numbers from one on: short and long forms with
commas between them. -/
def scriptNames : List String :=
  ["zyyy,common latn,latin bopo,bopomofo zinh,inherited,qaai grek,greek copt,coptic,qaac cyrl,c",
   "yrillic armn,armenian hebr,hebrew arab,arabic syrc,syriac thaa,thaana nkoo,nko samr,samarit",
   "an mand,mandaic deva,devanagari beng,bengali guru,gurmukhi gujr,gujarati orya,oriya taml,ta",
   "mil telu,telugu knda,kannada mlym,malayalam sinh,sinhala thai laoo,lao tibt,tibetan mymr,my",
   "anmar geor,georgian hang,hangul ethi,ethiopic cher,cherokee cans,canadianaboriginal ogam,og",
   "ham runr,runic tglg,tagalog hano,hanunoo buhd,buhid tagb,tagbanwa khmr,khmer mong,mongolian",
   " limb,limbu tale,taile talu,newtailue bugi,buginese lana,taitham bali,balinese sund,sundane",
   "se batk,batak lepc,lepcha olck,olchiki brai,braille glag,glagolitic tfng,tifinagh hani,han ",
   "hira,hiragana kana,katakana yiii,yi lisu vaii,vai bamu,bamum sylo,sylotinagri phag,phagspa ",
   "saur,saurashtra kali,kayahli rjng,rejang java,javanese cham tavt,taiviet mtei,meeteimayek l",
   "inb,linearb lyci,lycian cari,carian ital,olditalic goth,gothic perm,oldpermic ugar,ugaritic",
   " xpeo,oldpersian dsrt,deseret shaw,shavian osma,osmanya osge,osage elba,elbasan aghb,caucas",
   "ianalbanian vith,vithkuqi lina,lineara cprt,cypriot armi,imperialaramaic palm,palmyrene nba",
   "t,nabataean hatr,hatran phnx,phoenician lydi,lydian mero,meroitichieroglyphs merc,meroiticc",
   "ursive khar,kharoshthi sarb,oldsoutharabian narb,oldnortharabian mani,manichaean avst,avest",
   "an prti,inscriptionalparthian phli,inscriptionalpahlavi phlp,psalterpahlavi orkh,oldturkic ",
   "hung,oldhungarian rohg,hanifirohingya yezi,yezidi sogo,oldsogdian sogd,sogdian ougr,olduygh",
   "ur chrs,chorasmian elym,elymaic brah,brahmi kthi,kaithi sora,sorasompeng cakm,chakma mahj,m",
   "ahajani shrd,sharada khoj,khojki mult,multani sind,khudawadi gran,grantha newa tirh,tirhuta",
   " sidd,siddham modi takr,takri ahom dogr,dogra wara,warangciti diak,divesakuru nand,nandinag",
   "ari zanb,zanabazarsquare soyo,soyombo pauc,paucinhau bhks,bhaiksuki marc,marchen gonm,masar",
   "amgondi gong,gunjalagondi maka,makasar kawi xsux,cuneiform cpmn,cyprominoan egyp,egyptianhi",
   "eroglyphs hluw,anatolianhieroglyphs mroo,mro tnsa,tangsa bass,bassavah hmng,pahawhhmong med",
   "f,medefaidrin plrd,miao tang,tangut nshu,nushu kits,khitansmallscript dupl,duployan sgnw,si",
   "gnwriting hmnp,nyiakengpuachuehmong toto wcho,wancho nagm,nagmundari mend,mendekikakui adlm",
   ",adlam"]

/-- Lengths of runs of characters of one script, each with the number of the script. -/
def scriptRuns : List String :=
  ["1t 1 q 2 6 1 q 2 1b 1 1 2 f 1 1 2 5 1 n 2 1 1 v 2 1 1 ch 2 13 1 5 2 5 1 2 3 k 1 34 4 4 5 1 ",
   "1 3 5 2 0 4 5 1 1 1 5 4 0 1 5 1 1 1 5 1 1 3 5 1 0 1 5 1 0 k 5 1 0 1r 5 e 6 g 5 3p 7 2 4 4p ",
   "7 1 0 12 8 2 0 1e 8 2 0 3 8 1 0 1j 9 8 0 r 9 4 0 6 9 b 0 5 a 1 1 6 a 1 1 e a 1 1 3 a 1 1 w ",
   "a 1 1 a a b 4 q a 1 4 30 a 1 1 y a e b 1 0 1o b 2 0 3 b 1c a 1e c e 0 1n d 2 0 3 d 1a e 2 0",
   " f e 1 0 s f 2 0 1 f 1 0 b b 5 0 v a 1 0 2 a 6 0 22 a 1 1 t a 29 g 4 4 f g 2 1 q g 4 h 1 0 ",
   "8 h 2 0 2 h 2 0 m h 1 0 7 h 1 0 1 h 3 0 4 h 2 0 9 h 2 0 2 h 2 0 4 h 8 0 1 h 4 0 2 h 1 0 5 h",
   " 2 0 p h 2 0 3 i 1 0 6 i 4 0 2 i 2 0 m i 1 0 7 i 1 0 2 i 1 0 2 i 1 0 2 i 2 0 1 i 1 0 5 i 4 ",
   "0 2 i 2 0 3 i 3 0 1 i 7 0 4 i 1 0 1 i 7 0 h i a 0 3 j 1 0 9 j 1 0 3 j 1 0 m j 1 0 7 j 1 0 2",
   " j 1 0 5 j 2 0 a j 1 0 3 j 1 0 3 j 2 0 1 j f 0 4 j 2 0 c j 7 0 7 j 1 0 3 k 1 0 8 k 2 0 2 k ",
   "2 0 m k 1 0 7 k 1 0 2 k 1 0 5 k 2 0 9 k 2 0 2 k 2 0 3 k 7 0 3 k 4 0 2 k 1 0 5 k 2 0 i k a 0",
   " 2 l 1 0 6 l 3 0 3 l 1 0 4 l 3 0 2 l 1 0 1 l 1 0 2 l 3 0 2 l 3 0 3 l 3 0 c l 4 0 5 l 3 0 3 ",
   "l 1 0 4 l 2 0 1 l 6 0 1 l e 0 l l 5 0 d m 1 0 3 m 1 0 n m 1 0 g m 2 0 9 m 1 0 3 m 1 0 4 m 7",
   " 0 2 m 1 0 3 m 2 0 1 m 2 0 4 m 2 0 a m 7 0 9 m d n 1 0 3 n 1 0 n n 1 0 a n 1 0 5 n 2 0 9 n ",
   "1 0 3 n 1 0 4 n 7 0 2 n 6 0 2 n 1 0 4 n 2 0 a n 1 0 3 n c 0 d o 1 0 3 o 1 0 1f o 1 0 3 o 1 ",
   "0 6 o 4 0 g o 2 0 q o 1 0 3 p 1 0 i p 3 0 o p 1 0 9 p 1 0 1 p 2 0 7 p 3 0 1 p 4 0 6 p 1 0 1",
   " p 1 0 8 p 6 0 a p 2 0 3 p c 0 1m q 4 0 1 1 s q 11 0 2 r 1 0 1 r 1 0 5 r 1 0 o r 1 0 1 r 1 ",
   "0 n r 2 0 5 r 1 0 1 r 1 0 7 r 1 0 a r 2 0 4 r w 0 20 s 1 0 10 s 4 0 13 s 1 0 10 s 1 0 f s 1",
   " 0 7 s 4 1 2 s 11 0 4g t 12 u 1 0 1 u 5 0 1 u 2 0 17 u 1 1 4 u 74 v 21 w 1 0 4 w 2 0 7 w 1 ",
   "0 1 w 1 0 4 w 2 0 15 w 1 0 4 w 2 0 x w 1 0 4 w 2 0 7 w 1 0 1 w 1 0 4 w 2 0 f w 1 0 1l w 1 0",
   " 4 w 2 0 1v w 2 0 w w 3 0 q w 6 0 2e x 2 0 6 x 2 0 hs y t z 3 0 23 10 3 1 b 10 7 0 m 11 9 0",
   " 1 11 l 12 2 1 9 0 k 13 c 0 d 14 1 0 3 14 1 0 2 14 c 0 2m 15 2 0 a 15 6 0 a 15 6 0 2 16 2 1",
   " 1 16 1 1 k 16 6 0 2h 16 7 0 17 16 5 0 1y y a 0 v 17 1 0 c 17 4 0 c 17 4 0 1 17 3 0 c 17 u ",
   "18 2 0 5 18 b 0 18 19 4 0 q 19 6 0 b 19 3 0 2 19 w 15 s 1a 2 0 2 1a 1r 1b 1 0 t 1b 2 0 b 1b",
   " 6 0 a 1b 6 0 e 1b 2 0 v 4 1d 0 25 1c 3 0 1b 1c 1 0 1s 1d 1g 1e 8 0 4 1e 1k 1f 3 0 f 1f 3 0",
   " 3 1f 1c 1g 9 7 7 0 17 u 2 0 3 u 8 1d 8 0 3 4 1 1 d 4 1 1 7 4 4 1 1 4 6 1 1 4 3 1 2 4 1 1 5",
   " 0 12 2 5 5 1 7 1d 2 5 5 4 2 5 5 d 2 1 7 1y 2 1 5 1s 4 74 2 m 5 2 0 6 5 2 0 12 5 2 0 6 5 2 ",
   "0 8 5 1 0 1 5 1 0 1 5 1 0 1 5 1 0 v 5 2 0 1h 5 1 0 f 5 1 0 e 5 2 0 6 5 1 0 j 5 2 0 3 5 1 0 ",
   "9 5 1 0 c 1 2 4 2f 1 1 0 b 1 1 2 2 0 b 1 1 2 f 1 1 0 d 2 3 0 x 1 f 0 x 4 f 0 12 1 1 5 3 1 2",
   " 2 6 1 1 2 r 1 1 2 h 1 15 2 3 1 4 0 if 1 p 0 b 1 l 0 ps 1 74 1h hg 1 2 0 w 1 1 0 2x 1 2o 1i",
   " w 2 38 6 5 0 7 6 12 u 1 0 1 u 5 0 1 u 2 0 1k 1j 7 0 2 1j e 0 1 1j n w 9 0 7 w 1 0 7 w 1 0 ",
   "7 w 1 0 7 w 1 0 7 w 1 0 7 w 1 0 7 w 1 0 7 w 1 0 w 7 2m 1 y 0 q 1k 1 0 2h 1k c 0 5y 1k q 0 c",
   " 1 4 0 5 1 1 1k 1 1 1 1k p 1 9 1k 4 4 2 v 8 1 4 1k 4 1 1 0 2e 1l 2 0 2 4 2 1 3 1l 1 1 2i 1m",
   " 2 1 3 1m 5 0 17 3 1 0 2m v 1 0 g 1 w 3 10 1 c 0 g 1m v v 1 0 1s 1 v v 29 1 1b 1m 1 1 2g 1m",
   " 4o 1 534 1k 1s 1 g74 1k wd 1n 3 0 1j 1n 9 0 1c 1o 8c 1p k 0 2o 7 2g 1q 8 0 y 1 2u 2 3 1 1s",
   " 2 5 0 2 2 1 0 1 2 1 0 5 2 o 0 e 2 19 1r 3 0 a 1 6 0 1k 1s 8 0 1y 1t 8 0 c 1t 6 0 w g 1a 1u",
   " 1 1 1 1u 10 1v b 0 1 1v t v 3 0 26 1w 1 0 1 1 a 1w 4 0 2 1w v t 1 0 1j 1x 9 0 e 1x 2 0 a 1",
   "x 2 0 4 1x w t 1v 1y o 0 5 1y n 1z a 0 6 w 2 0 6 w 2 0 6 w 9 0 7 w 1 0 7 w 1 0 17 2 1 1 9 2",
   " 1 5 4 2 2 1 4 0 28 x 1a 1z 2 0 a 1z 6 0 8mc v c 0 n v 4 0 1d v 6is 0 a6 1k 2 0 2y 1k 12 0 ",
   "7 2 c 0 5 8 5 0 q 9 1 0 5 9 1 0 1 9 1 0 2 9 1 0 2 9 1 0 a 9 37 a g 0 a3 a 2 1 28 a 2 0 1i a",
   " 7 0 1 a w 0 g a g 4 a 1 6 0 e 4 2 7 z 1 1 0 j 1 1 0 4 1 4 0 5 a 1 0 3r a 2 0 1 1 1 0 w 1 q",
   " 2 6 1 q 2 b 1 a 1m 1 1 19 1m 2 1 v v 3 0 6 v 2 0 6 v 2 0 6 v 2 0 3 v 3 0 7 1 1 0 7 1 a 0 5",
   " 1 2 0 c 20 1 0 q 20 1 0 j 20 1 0 2 20 1 0 f 20 2 0 e 20 y 0 3f 20 5 0 3 1 4 0 19 1 3 0 9 1",
   " 27 5 1 0 d 1 3 0 1 5 1b 0 19 1 1 4 3m 0 t 21 3 0 1d 22 f 0 1 4 r 1 4 0 10 23 9 0 3 23 r 24",
   " 5 0 17 25 5 0 u 26 1 0 1 26 10 27 4 0 e 27 16 0 28 28 1c 29 u 2a 2 0 a 2a 6 0 10 2b 4 0 10",
   " 2b 4 0 14 2c 8 0 1g 2d b 0 1 2d b 2e 1 0 f 2e 1 0 7 2e 1 0 2 2e 1 0 b 2e 1 0 f 2e 1 0 7 2e",
   " 1 0 2 2e 1v 0 8n 2f 9 0 m 2f a 0 8 2f o 0 6 2 1 0 16 2 1 0 9 2 1x 0 6 2g 2 0 1 2g 1 0 18 2",
   "g 1 0 2 2g 3 0 1 2g 2 0 1 2g m 2h 1 0 9 2h w 2i v 2j 8 0 9 2j 1c 0 j 2k 1 0 2 2k 5 0 5 2k s",
   " 2l 3 0 1 2l q 2m 5 0 1 2m 1s 0 w 2n o 2o 4 0 k 2o 2 0 1a 2o 4 2p 1 0 2 2p 5 0 8 2p 1 0 3 2",
   "p 1 0 t 2p 2 0 3 2p 4 0 a 2p 7 0 9 2p 7 0 w 2q w 2r w 0 13 2s 4 0 c 2s 9 0 1i 2t 3 0 7 2t m",
   " 2u 2 0 8 2u j 2v 5 0 8 2v i 2w 7 0 4 2w c 0 7 2w 28 0 21 2x 1j 0 1f 2y d 0 1f 2y 7 0 6 2y ",
   "14 2z 8 0 a 2z 86 0 v a 1 0 16 30 1 0 3 30 2 0 2 30 23 0 3 a 14 31 8 0 16 32 m 0 q 33 12 0 ",
   "s 34 k 0 n 35 9 0 26 36 4 0 10 36 9 0 1 36 1v 37 a 0 1 37 2 0 p 38 7 0 a 38 6 0 1h 39 1 0 i",
   " 39 8 0 13 3a 9 0 2o 3b 1 0 k p b 0 i 3c 1 0 1b 3c 1q 0 7 3d 1 0 1 3d 1 0 4 3d 1 0 f 3d 1 0",
   " b 3d 6 0 1n 3e 5 0 a 3e 6 0 4 3f 1 0 8 3f 2 0 2 3f 2 0 m 3f 1 0 7 3f 1 0 2 3f 1 0 5 3f 1 0",
   " 1 4 9 3f 2 0 2 3f 2 0 3 3f 2 0 1 3f 6 0 1 3f 5 0 7 3f 2 0 7 3f 3 0 5 3f 3v 0 2k 3g 1 0 5 3",
   "g u 0 20 3h 8 0 a 3h 4m 0 1i 3i 2 0 12 3i y 0 1x 3j b 0 a 3j 6 0 d 16 j 0 1m 3k 6 0 a 3k 1i",
   " 0 r 3l 2 0 f 3l 4 0 n 3l 55 0 1o 3m 2s 0 2b 3n c 0 1 3n 7 3o 2 0 1 3o 2 0 8 3o 1 0 2 3o 1 ",
   "0 u 3o 1 0 2 3o 2 0 c 3o 9 0 a 3o 1y 0 8 3p 2 0 1a 3p 2 0 b 3p r 0 20 3q 8 0 2b 3r d 0 g y ",
   "1l 3s 7 0 a g 6u 0 9 3t 1 0 19 3t 1 0 e 3t a 0 t 3t 3 0 w 3u 2 0 m 3u 1 0 e 3u 21 0 7 3v 1 ",
   "0 2 3v 1 0 18 3v 3 0 1 3v 1 0 2 3v 1 0 9 3v 8 0 a 3v 6 0 6 3w 1 0 2 3w 1 0 11 3w 1 0 2 3w 1",
   " 0 6 3w 7 0 a 3w 8m 0 p 3x 7 0 h 3y 1 0 15 3y 3 0 s 3y 2e 0 1 1o f 0 1e l d 0 1 l pm 3z 2u ",
   "0 33 3z 1 0 5 3z b 0 5g 3z 218 0 2r 40 d 0 uu 41 33e 0 g7 42 6nt 0 ft 1q 7 0 v 43 1 0 a 43 ",
   "4 0 2 43 27 44 1 0 a 44 6 0 u 45 2 0 6 45 a 0 1y 46 a 0 a 46 1 0 7 46 1 0 l 46 5 0 j 46 j4 ",
   "0 2j 47 2t 0 23 48 4 0 1l 48 7 0 h 48 1s 0 1 49 1 4a 2 1k 1 4b b 0 2 1k e 0 4qg 49 8 0 lc 4",
   "9 d2 4b 16 0 9 49 6w7 0 4 1m 1 0 7 1m 1 0 2 1m 1 0 1 1m 7z 1l 3 1m f 0 1 1l t 0 3 1l 2 0 1 ",
   "1m e 0 4 1m 8 0 b0 4a 1s4 0 2z 4c 5 0 d 4c 3 0 9 4c 7 0 a 4c 2 0 4 4c 4 1 3mk 0 1a 4 2 0 n ",
   "4 9 0 38 1 1o 0 6u 1 a 0 13 1 2 0 1q 1 3 4 h 1 8 4 2 1 7 4 u 1 4 4 1p 1 l 0 1y 5 3e 0 k 1 c",
   " 0 k 1 c 0 2f 1 9 0 p 1 3r 0 2d 1 1 0 1z 1 1 0 2 1 2 0 1 1 2 0 2 1 2 0 4 1 1 0 c 1 1 0 1 1 ",
   "1 0 7 1 1 0 1t 1 1 0 4 1 2 0 8 1 1 0 7 1 1 0 s 1 1 0 4 1 1 0 5 1 1 0 1 1 3 0 7 1 1 0 9g 1 2",
   " 0 84 1 2 0 1e 1 i4 4d f 0 5 4d 1 0 f 4d uo 0 v 2 6 0 6 2 5x 0 7 1i 1 0 h 1i 2 0 7 1i 1 0 2",
   " 1i 1 0 5 1i 5 0 1q 7 x 0 1 7 34 0 19 4e 3 0 e 4e 2 0 a 4e 4 0 2 4e 8w 0 v 4f h 0 1m 4g 5 0",
   " 1 4g cw 0 16 4h km 0 7 w 1 0 4 w 1 0 2 w 1 0 f w 1 0 5h 4i 2 0 g 4i 15 0 24 4j 4 0 a 4j 4 ",
   "0 2 4j lt 0 1w 1 24 0 1p 1 5e 0 4 a 1 0 r a 1 0 2 a 1 0 1 a 2 0 1 a 1 0 a a 1 0 4 a 1 0 1 a",
   " 1 0 1 a 6 0 1 a 4 0 1 a 1 0 1 a 1 0 1 a 1 0 3 a 1 0 2 a 1 0 1 a 2 0 1 a 1 0 1 a 1 0 1 a 1 ",
   "0 1 a 1 0 1 a 1 0 2 a 1 0 1 a 2 0 4 a 1 0 7 a 1 0 4 a 1 0 4 a 1 0 1 a 1 0 a a 1 0 h a 5 0 3",
   " a 1 0 5 a 1 0 h a 1g 0 2 a 7i 0 18 1 4 0 2s 1 c 0 f 1 2 0 f 1 1 0 f 1 1 0 11 1 a 0 4u 1 1k",
   " 0 q 1 1 1l 2 1 d 0 18 1 4 0 9 1 7 0 2 1 e 0 6 1 4a 0 rc 1 4 0 h 1 3 0 d 1 3 0 3b 1 4 0 2n ",
   "1 6 0 c 1 4 0 1 1 f 0 c 1 4 0 1k 1 8 0 a 1 6 0 14 1 8 0 u 1 2 0 2 1 26 0 9g 1 c 0 e 1 2 0 d",
   " 1 3 0 9 1 7 0 1a 1 1 0 7 1 8 0 e 1 4 0 9 1 7 0 9 1 7 0 43 1 1 0 1j 1 11 0 a 1 sm 0 wyo 1k ",
   "w 0 37e 1k 6 0 66 1k 2 0 4g2 1k e 0 5rl 1k 2e7 0 f2 1k 15u 0 3t7 1k 5 0 38g 1k f975 0 1 1 u",
   " 0 2o 1 3k 0 6o 4 47bk 0 0 0"]

/-- Runs from their lengths and values in turn. -/
def runsOfPairs (start : Nat) (r : Runs Nat) : List Nat → Runs Nat
  | length :: value :: rest =>
    runsOfPairs (start + length) ⟨r.starts.push start, r.values.push value⟩ rest
  | _ => r

/-- Where each run of characters of one script starts. -/
def scriptTable : Runs Nat :=
  runsOfPairs 0 ⟨#[], #[]⟩ (numerals (scriptRuns.flatMap String.toList))

/-- The number of a character's script, zero if it has none. -/
def script (c : Char) : Nat :=
  scriptTable.valueAt c.toNat

/-- The number of the script of a name, written in lower case without separators. -/
def scriptNamed? (name : Text) : Option Nat :=
  ((Text.splitOn ' ' (scriptNames.flatMap String.toList)).findIdx? fun names =>
    (Text.splitOn ',' names).contains name).map (· + 1)

end AmpMarkup.Unicode
