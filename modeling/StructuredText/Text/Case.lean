/-!
# Letter case

Three mappings of Unicode 14.0 on single code points.

* `lowerChar` takes a letter to its lower-case letter.
* `upperChars` takes a letter to its upper-case spelling, which may be longer: `ß` becomes `SS`.
* `foldChar` takes all letters that differ only in case to one representative. It is the
  lower-case letter, except that letters with a common upper-case letter share one: `ı` folds to
  `i` and `ſ` to `s`.

Two texts are equal up to case when they fold to the same text.
-/

namespace StructuredText

/-- Letters `first`, `first + step`, … `last` whose other case lies `shift` code points away. -/
structure CaseRun where
  first : Nat
  last : Nat
  step : Nat
  shift : Int
deriving Repr, DecidableEq

def CaseRun.contains (run : CaseRun) (n : Nat) : Bool :=
  run.first ≤ n && n ≤ run.last && (n - run.first) % run.step == 0

/-- The code point `n` moved by the run that holds it, or `n` itself. -/
def shiftByRuns (n : Nat) (runs : List CaseRun) : Nat :=
  match runs.find? (·.contains n) with
  | some run => ((n : Int) + run.shift).toNat
  | none => n

/-- Runs of every second letter, from the first to the last. -/
def CaseRun.alternating (shift : Int) (runs : List (Nat × Nat)) : List CaseRun :=
  runs.map fun run => ⟨run.1, run.2, 2, shift⟩

/-- Letters by themselves, each with its shift. -/
def CaseRun.singles (letters : List (Nat × Int)) : List CaseRun :=
  letters.map fun letter => ⟨letter.1, letter.1, 1, letter.2⟩

def lowerBlocks : List CaseRun :=
  [⟨192, 214, 1, 32⟩, ⟨216, 222, 1, 32⟩, ⟨393, 394, 1, 205⟩, ⟨433, 434, 1, 217⟩, ⟨904, 906, 1, 37⟩,
   ⟨910, 911, 1, 63⟩, ⟨913, 929, 1, 32⟩, ⟨931, 939, 1, 32⟩, ⟨1021, 1023, 1, -130⟩,
   ⟨1024, 1039, 1, 80⟩, ⟨1040, 1071, 1, 32⟩, ⟨1329, 1366, 1, 48⟩, ⟨4256, 4293, 1, 7264⟩,
   ⟨5024, 5103, 1, 38864⟩, ⟨5104, 5109, 1, 8⟩, ⟨7312, 7354, 1, -3008⟩, ⟨7357, 7359, 1, -3008⟩,
   ⟨7944, 7951, 1, -8⟩, ⟨7960, 7965, 1, -8⟩, ⟨7976, 7983, 1, -8⟩, ⟨7992, 7999, 1, -8⟩,
   ⟨8008, 8013, 1, -8⟩, ⟨8025, 8031, 2, -8⟩, ⟨8040, 8047, 1, -8⟩, ⟨8072, 8079, 1, -8⟩,
   ⟨8088, 8095, 1, -8⟩, ⟨8104, 8111, 1, -8⟩, ⟨8120, 8121, 1, -8⟩, ⟨8122, 8123, 1, -74⟩,
   ⟨8136, 8139, 1, -86⟩, ⟨8152, 8153, 1, -8⟩, ⟨8154, 8155, 1, -100⟩, ⟨8168, 8169, 1, -8⟩,
   ⟨8170, 8171, 1, -112⟩, ⟨8184, 8185, 1, -128⟩, ⟨8186, 8187, 1, -126⟩, ⟨8544, 8559, 1, 16⟩,
   ⟨9398, 9423, 1, 26⟩, ⟨11264, 11311, 1, 48⟩, ⟨11390, 11391, 1, -10815⟩, ⟨65313, 65338, 1, 32⟩,
   ⟨66560, 66599, 1, 40⟩, ⟨66736, 66771, 1, 40⟩, ⟨66928, 66938, 1, 39⟩, ⟨66940, 66954, 1, 39⟩,
   ⟨66956, 66962, 1, 39⟩, ⟨66964, 66965, 1, 39⟩, ⟨68736, 68786, 1, 64⟩, ⟨71840, 71871, 1, 32⟩,
   ⟨93760, 93791, 1, 32⟩, ⟨125184, 125217, 1, 34⟩]

def lowerPairs : List (Nat × Nat) :=
  [(256, 302), (306, 310), (313, 327), (330, 374), (377, 381), (386, 388), (416, 420), (435, 437),
   (459, 475), (478, 494), (498, 500), (504, 542), (546, 562), (582, 590), (880, 882), (984, 1006),
   (1120, 1152), (1162, 1214), (1217, 1229), (1232, 1326), (7680, 7828), (7840, 7934),
   (11367, 11371), (11392, 11490), (11499, 11501), (42560, 42604), (42624, 42650), (42786, 42798),
   (42802, 42862), (42873, 42875), (42878, 42886), (42896, 42898), (42902, 42920), (42932, 42946),
   (42951, 42953), (42966, 42968)]

def lowerSingles : List (Nat × Int) :=
  [(304, -199), (376, -121), (385, 210), (390, 206), (391, 1), (395, 1), (398, 79), (399, 202),
   (400, 203), (401, 1), (403, 205), (404, 207), (406, 211), (407, 209), (408, 1), (412, 211),
   (413, 213), (415, 214), (422, 218), (423, 1), (425, 218), (428, 1), (430, 218), (431, 1),
   (439, 219), (440, 1), (444, 1), (452, 2), (453, 1), (455, 2), (456, 1), (458, 2), (497, 2),
   (502, -97), (503, -56), (544, -130), (570, 10795), (571, 1), (573, -163), (574, 10792), (577, 1),
   (579, -195), (580, 69), (581, 71), (886, 1), (895, 116), (902, 38), (908, 64), (975, 8),
   (1012, -60), (1015, 1), (1017, -7), (1018, 1), (1216, 15), (4295, 7264), (4301, 7264),
   (7838, -7615), (8124, -9), (8140, -9), (8172, -7), (8188, -9), (8486, -7517), (8490, -8383),
   (8491, -8262), (8498, 28), (8579, 1), (11360, 1), (11362, -10743), (11363, -3814),
   (11364, -10727), (11373, -10780), (11374, -10749), (11375, -10783), (11376, -10782), (11378, 1),
   (11381, 1), (11506, 1), (42877, -35332), (42891, 1), (42893, -42280), (42922, -42308),
   (42923, -42319), (42924, -42315), (42925, -42305), (42926, -42308), (42928, -42258),
   (42929, -42282), (42930, -42261), (42931, 928), (42948, -48), (42949, -42307), (42950, -35384),
   (42960, 1), (42997, 1)]

/-- Letters above the ASCII range that have a lower-case letter. -/
def lowerRuns : List CaseRun :=
  lowerBlocks ++ CaseRun.alternating 1 lowerPairs ++ CaseRun.singles lowerSingles

def upperBlocks : List CaseRun :=
  [⟨224, 246, 1, -32⟩, ⟨248, 254, 1, -32⟩, ⟨575, 576, 1, 10815⟩, ⟨598, 599, 1, -205⟩,
   ⟨650, 651, 1, -217⟩, ⟨891, 893, 1, 130⟩, ⟨941, 943, 1, -37⟩, ⟨945, 961, 1, -32⟩,
   ⟨963, 971, 1, -32⟩, ⟨973, 974, 1, -63⟩, ⟨1072, 1103, 1, -32⟩, ⟨1104, 1119, 1, -80⟩,
   ⟨1377, 1414, 1, -48⟩, ⟨4304, 4346, 1, 3008⟩, ⟨4349, 4351, 1, 3008⟩, ⟨5112, 5117, 1, -8⟩,
   ⟨7299, 7300, 1, -6242⟩, ⟨7936, 7943, 1, 8⟩, ⟨7952, 7957, 1, 8⟩, ⟨7968, 7975, 1, 8⟩,
   ⟨7984, 7991, 1, 8⟩, ⟨8000, 8005, 1, 8⟩, ⟨8017, 8023, 2, 8⟩, ⟨8032, 8039, 1, 8⟩,
   ⟨8048, 8049, 1, 74⟩, ⟨8050, 8053, 1, 86⟩, ⟨8054, 8055, 1, 100⟩, ⟨8056, 8057, 1, 128⟩,
   ⟨8058, 8059, 1, 112⟩, ⟨8060, 8061, 1, 126⟩, ⟨8112, 8113, 1, 8⟩, ⟨8144, 8145, 1, 8⟩,
   ⟨8160, 8161, 1, 8⟩, ⟨8560, 8575, 1, -16⟩, ⟨9424, 9449, 1, -26⟩, ⟨11312, 11359, 1, -48⟩,
   ⟨11520, 11557, 1, -7264⟩, ⟨43888, 43967, 1, -38864⟩, ⟨65345, 65370, 1, -32⟩,
   ⟨66600, 66639, 1, -40⟩, ⟨66776, 66811, 1, -40⟩, ⟨66967, 66977, 1, -39⟩, ⟨66979, 66993, 1, -39⟩,
   ⟨66995, 67001, 1, -39⟩, ⟨67003, 67004, 1, -39⟩, ⟨68800, 68850, 1, -64⟩, ⟨71872, 71903, 1, -32⟩,
   ⟨93792, 93823, 1, -32⟩, ⟨125218, 125251, 1, -34⟩]

def upperPairs : List (Nat × Nat) :=
  [(257, 303), (307, 311), (314, 328), (331, 375), (378, 382), (387, 389), (417, 421), (436, 438),
   (462, 476), (479, 495), (505, 543), (547, 563), (583, 591), (881, 883), (985, 1007),
   (1121, 1153), (1163, 1215), (1218, 1230), (1233, 1327), (7681, 7829), (7841, 7935),
   (11368, 11372), (11393, 11491), (11500, 11502), (42561, 42605), (42625, 42651), (42787, 42799),
   (42803, 42863), (42874, 42876), (42879, 42887), (42897, 42899), (42903, 42921), (42933, 42947),
   (42952, 42954), (42967, 42969)]

def upperSingles : List (Nat × Int) :=
  [(181, 743), (255, 121), (305, -232), (383, -300), (384, 195), (392, -1), (396, -1), (402, -1),
   (405, 97), (409, -1), (410, 163), (414, 130), (424, -1), (429, -1), (432, -1), (441, -1),
   (445, -1), (447, 56), (453, -1), (454, -2), (456, -1), (457, -2), (459, -1), (460, -2),
   (477, -79), (498, -1), (499, -2), (501, -1), (572, -1), (578, -1), (592, 10783), (593, 10780),
   (594, 10782), (595, -210), (596, -206), (601, -202), (603, -203), (604, 42319), (608, -205),
   (609, 42315), (611, -207), (613, 42280), (614, 42308), (616, -209), (617, -211), (618, 42308),
   (619, 10743), (620, 42305), (623, -211), (625, 10749), (626, -213), (629, -214), (637, 10727),
   (640, -218), (642, 42307), (643, -218), (647, 42282), (648, -218), (649, -69), (652, -71),
   (658, -219), (669, 42261), (670, 42258), (837, 84), (887, -1), (940, -38), (962, -31),
   (972, -64), (976, -62), (977, -57), (981, -47), (982, -54), (983, -8), (1008, -86), (1009, -80),
   (1010, 7), (1011, -116), (1013, -96), (1016, -1), (1019, -1), (1231, -15), (7296, -6254),
   (7297, -6253), (7298, -6244), (7301, -6243), (7302, -6236), (7303, -6181), (7304, 35266),
   (7545, 35332), (7549, 3814), (7566, 35384), (7835, -59), (8126, -7205), (8165, 7), (8526, -28),
   (8580, -1), (11361, -1), (11365, -10795), (11366, -10792), (11379, -1), (11382, -1), (11507, -1),
   (11559, -7264), (11565, -7264), (42892, -1), (42900, 48), (42961, -1), (42998, -1),
   (43859, -928)]

/-- Letters above the ASCII range that have a single upper-case letter. -/
def upperRuns : List CaseRun :=
  upperBlocks ++ CaseRun.alternating (-1) upperPairs ++ CaseRun.singles upperSingles

/-- Eight letters from the first number on, each with a mark that becomes a capital iota behind one
of the letters from the second number on. -/
def iotaSpellings (first second : Nat) : List (Nat × List Nat) :=
  (List.range 8).map fun i => (first + i, [second + i, 921])

/-- Letters whose upper-case spelling has several letters. -/
def upperSpellings : List (Nat × List Nat) :=
  [(223, [83, 83]), (329, [700, 78]), (496, [74, 780]), (912, [921, 776, 769]),
   (944, [933, 776, 769]), (1415, [1333, 1362]), (7830, [72, 817]), (7831, [84, 776]),
   (7832, [87, 778]), (7833, [89, 778]), (7834, [65, 702]), (8016, [933, 787]),
   (8018, [933, 787, 768]), (8020, [933, 787, 769]), (8022, [933, 787, 834]), (8114, [8122, 921]),
   (8115, [913, 921]), (8116, [902, 921]), (8118, [913, 834]), (8119, [913, 834, 921]),
   (8124, [913, 921]), (8130, [8138, 921]), (8131, [919, 921]), (8132, [905, 921]),
   (8134, [919, 834]), (8135, [919, 834, 921]), (8140, [919, 921]), (8146, [921, 776, 768]),
   (8147, [921, 776, 769]), (8150, [921, 834]), (8151, [921, 776, 834]), (8162, [933, 776, 768]),
   (8163, [933, 776, 769]), (8164, [929, 787]), (8166, [933, 834]), (8167, [933, 776, 834]),
   (8178, [8186, 921]), (8179, [937, 921]), (8180, [911, 921]), (8182, [937, 834]),
   (8183, [937, 834, 921]), (8188, [937, 921]), (64256, [70, 70]), (64257, [70, 73]),
   (64258, [70, 76]), (64259, [70, 70, 73]), (64260, [70, 70, 76]), (64261, [83, 84]),
   (64262, [83, 84]), (64275, [1348, 1350]), (64276, [1348, 1333]), (64277, [1348, 1339]),
   (64278, [1358, 1350]), (64279, [1348, 1341])] ++
    iotaSpellings 8064 7944 ++ iotaSpellings 8072 7944 ++ iotaSpellings 8080 7976 ++
    iotaSpellings 8088 7976 ++ iotaSpellings 8096 8040 ++ iotaSpellings 8104 8040

/-- Lower-case letters that share an upper-case letter, the representative first. -/
def sharedUpperCase : List (List Nat) :=
  [[105, 305], [115, 383], [181, 956], [837, 953, 8126], [912, 8147],
   [944, 8163], [946, 976], [949, 1013], [952, 977], [954, 1008],
   [960, 982], [961, 1009], [962, 963], [966, 981], [1074, 7296],
   [1076, 7297], [1086, 7298], [1089, 7299], [1090, 7300, 7301], [1098, 7302],
   [1123, 7303], [7304, 42571], [7777, 7835], [64261, 64262]]

/-- The lower-case letter of `c`, or `c` itself. -/
def lowerChar (c : Char) : Char :=
  if c.toNat < 128 then
    if 'A' ≤ c && c ≤ 'Z' then Char.ofNat (c.toNat + 32) else c
  else Char.ofNat (shiftByRuns c.toNat lowerRuns)

/-- The upper-case spelling of `c`. -/
def upperChars (c : Char) : List Char :=
  if c.toNat < 128 then
    if 'a' ≤ c && c ≤ 'z' then [Char.ofNat (c.toNat - 32)] else [c]
  else
    match upperSpellings.lookup c.toNat with
    | some spelling => spelling.map Char.ofNat
    | none => [Char.ofNat (shiftByRuns c.toNat upperRuns)]

def lower (text : List Char) : List Char :=
  text.map lowerChar

def upper (text : List Char) : List Char :=
  text.flatMap upperChars

/-- The representative of all letters that equal `c` up to case. -/
def foldChar (c : Char) : Char :=
  let l := lowerChar c
  if l.toNat < 128 then l
  else
    match sharedUpperCase.find? (·.contains l.toNat) with
    | some (representative :: _) => Char.ofNat representative
    | _ => l

/-- The code points whose lower-case letter is `n`, other than `n`. -/
def raisedFrom (n : Nat) : List Nat :=
  (if 97 ≤ n && n ≤ 122 then [n - 32] else []) ++
    lowerRuns.filterMap fun run =>
      let source := ((n : Int) - run.shift).toNat
      if run.contains source && n != source then some source else none

/-- Every code point that equals `c` up to case. -/
def caseVariants (c : Char) : List Nat :=
  let l := (lowerChar c).toNat
  if l < 128 && l != 105 && l != 107 && l != 115 then
    if 97 ≤ l && l ≤ 122 then [l, l - 32] else [l]
  else
    let letters := (sharedUpperCase.find? (·.contains l)).getD [l]
    letters.flatMap fun n => n :: raisedFrom n

/-- Equality of code points up to case. -/
def sameUpToCase (c d : Char) : Bool :=
  foldChar c == foldChar d

end StructuredText
