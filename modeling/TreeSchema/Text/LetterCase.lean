/-!
# Letter case

The Unicode property `Uppercase` and the full lowercase mapping, each as runs of code points.
A run lists every second code point where capital and small letters alternate.
-/

namespace TreeSchema.Text.LetterCase

/-- Every `step`-th code point from `first` to `last`, both included. -/
structure Run where
  first : Nat
  last : Nat
  step : Nat

def Run.contains (r : Run) (n : Nat) : Bool :=
  r.first ≤ n && n ≤ r.last && (n - r.first) % r.step == 0

/-- A run from its three numbers. -/
def run (t : Nat × Nat × Nat) : Run := ⟨t.1, t.2.1, t.2.2⟩

/-- The capital letters beyond ASCII: first, last, step. -/
def capitals : List (Nat × Nat × Nat) := [
    (192, 214, 1), (216, 222, 1), (256, 310, 2), (313, 327, 2), (330, 376, 2), (377, 381, 2),
    (385, 386, 1), (388, 390, 2), (391, 393, 2), (394, 395, 1), (398, 401, 1), (403, 404, 1),
    (406, 408, 1), (412, 413, 1), (415, 416, 1), (418, 422, 2), (423, 425, 2), (428, 430, 2),
    (431, 433, 2), (434, 435, 1), (437, 439, 2), (440, 440, 1), (444, 444, 1), (452, 452, 1),
    (455, 455, 1), (458, 458, 1), (461, 475, 2), (478, 494, 2), (497, 497, 1), (500, 502, 2),
    (503, 504, 1), (506, 562, 2), (570, 571, 1), (573, 574, 1), (577, 579, 2), (580, 582, 1),
    (584, 590, 2), (880, 882, 2), (886, 886, 1), (895, 895, 1), (902, 904, 2), (905, 906, 1),
    (908, 910, 2), (911, 913, 2), (914, 929, 1), (931, 939, 1), (975, 975, 1), (978, 980, 1),
    (984, 1006, 2), (1012, 1012, 1), (1015, 1017, 2), (1018, 1018, 1), (1021, 1071, 1),
    (1120, 1152, 2), (1162, 1216, 2), (1217, 1229, 2), (1232, 1326, 2), (1329, 1366, 1),
    (4256, 4293, 1), (4295, 4295, 1), (4301, 4301, 1), (5024, 5109, 1), (7305, 7305, 1),
    (7312, 7354, 1), (7357, 7359, 1), (7680, 7828, 2), (7838, 7934, 2), (7944, 7951, 1),
    (7960, 7965, 1), (7976, 7983, 1), (7992, 7999, 1), (8008, 8013, 1), (8025, 8031, 2),
    (8040, 8047, 1), (8120, 8123, 1), (8136, 8139, 1), (8152, 8155, 1), (8168, 8172, 1),
    (8184, 8187, 1), (8450, 8450, 1), (8455, 8455, 1), (8459, 8461, 1), (8464, 8466, 1),
    (8469, 8469, 1), (8473, 8477, 1), (8484, 8490, 2), (8491, 8493, 1), (8496, 8499, 1),
    (8510, 8511, 1), (8517, 8517, 1), (8544, 8559, 1), (8579, 8579, 1), (9398, 9423, 1),
    (11264, 11311, 1), (11360, 11362, 2), (11363, 11364, 1), (11367, 11373, 2), (11374, 11376, 1),
    (11378, 11378, 1), (11381, 11381, 1), (11390, 11392, 1), (11394, 11490, 2), (11499, 11501, 2),
    (11506, 11506, 1), (42560, 42604, 2), (42624, 42650, 2), (42786, 42798, 2), (42802, 42862, 2),
    (42873, 42877, 2), (42878, 42886, 2), (42891, 42893, 2), (42896, 42898, 2), (42902, 42922, 2),
    (42923, 42926, 1), (42928, 42932, 1), (42934, 42948, 2), (42949, 42951, 1), (42953, 42955, 2),
    (42956, 42956, 1), (42958, 42972, 2), (42997, 42997, 1), (65313, 65338, 1),
    (66560, 66599, 1), (66736, 66771, 1), (66928, 66938, 1), (66940, 66954, 1), (66956, 66962, 1),
    (66964, 66965, 1), (68736, 68786, 1), (68944, 68965, 1), (71840, 71871, 1), (93760, 93791, 1),
    (93856, 93880, 1), (119808, 119833, 1), (119860, 119885, 1), (119912, 119937, 1),
    (119964, 119966, 2),
    (119967, 119967, 1), (119970, 119970, 1), (119973, 119974, 1), (119977, 119980, 1),
    (119982, 119989, 1), (120016, 120041, 1), (120068, 120069, 1), (120071, 120074, 1),
    (120077, 120084, 1), (120086, 120092, 1), (120120, 120121, 1), (120123, 120126, 1),
    (120128, 120132, 1), (120134, 120134, 1), (120138, 120144, 1), (120172, 120197, 1),
    (120224, 120249, 1), (120276, 120301, 1), (120328, 120353, 1), (120380, 120405, 1),
    (120432, 120457, 1), (120488, 120512, 1), (120546, 120570, 1), (120604, 120628, 1),
    (120662, 120686, 1), (120720, 120744, 1), (120778, 120778, 1), (125184, 125217, 1),
    (127280, 127305, 1), (127312, 127337, 1), (127344, 127369, 1)]

/-- The letters beyond ASCII with a single small form: first, last, step, distance to it. -/
def smallForms : List ((Nat × Nat × Nat) × Int) := [
    ((192, 214, 1), 32), ((216, 222, 1), 32), ((256, 302, 2), 1), ((306, 310, 2), 1),
    ((313, 327, 2), 1), ((330, 374, 2), 1), ((376, 376, 1), -121), ((377, 381, 2), 1),
    ((385, 385, 1), 210), ((386, 388, 2), 1), ((390, 390, 1), 206), ((391, 391, 1), 1),
    ((393, 394, 1), 205), ((395, 395, 1), 1), ((398, 398, 1), 79), ((399, 399, 1), 202),
    ((400, 400, 1), 203), ((401, 401, 1), 1), ((403, 403, 1), 205), ((404, 404, 1), 207),
    ((406, 406, 1), 211), ((407, 407, 1), 209), ((408, 408, 1), 1), ((412, 412, 1), 211),
    ((413, 413, 1), 213), ((415, 415, 1), 214), ((416, 420, 2), 1), ((422, 422, 1), 218),
    ((423, 423, 1), 1), ((425, 425, 1), 218), ((428, 428, 1), 1), ((430, 430, 1), 218),
    ((431, 431, 1), 1), ((433, 434, 1), 217), ((435, 437, 2), 1), ((439, 439, 1), 219),
    ((440, 440, 1), 1), ((444, 444, 1), 1), ((452, 452, 1), 2), ((453, 453, 1), 1),
    ((455, 455, 1), 2), ((456, 456, 1), 1), ((458, 458, 1), 2), ((459, 475, 2), 1),
    ((478, 494, 2), 1), ((497, 497, 1), 2), ((498, 500, 2), 1), ((502, 502, 1), -97),
    ((503, 503, 1), -56), ((504, 542, 2), 1), ((544, 544, 1), -130), ((546, 562, 2), 1),
    ((570, 570, 1), 10795), ((571, 571, 1), 1), ((573, 573, 1), -163), ((574, 574, 1), 10792),
    ((577, 577, 1), 1), ((579, 579, 1), -195), ((580, 580, 1), 69), ((581, 581, 1), 71),
    ((582, 590, 2), 1), ((880, 882, 2), 1), ((886, 886, 1), 1), ((895, 895, 1), 116),
    ((902, 902, 1), 38), ((904, 906, 1), 37), ((908, 908, 1), 64), ((910, 911, 1), 63),
    ((913, 929, 1), 32), ((931, 939, 1), 32), ((975, 975, 1), 8), ((984, 1006, 2), 1),
    ((1012, 1012, 1), -60), ((1015, 1015, 1), 1), ((1017, 1017, 1), -7), ((1018, 1018, 1), 1),
    ((1021, 1023, 1), -130), ((1024, 1039, 1), 80), ((1040, 1071, 1), 32), ((1120, 1152, 2), 1),
    ((1162, 1214, 2), 1), ((1216, 1216, 1), 15), ((1217, 1229, 2), 1), ((1232, 1326, 2), 1),
    ((1329, 1366, 1), 48), ((4256, 4293, 1), 7264), ((4295, 4295, 1), 7264),
    ((4301, 4301, 1), 7264), ((5024, 5103, 1), 38864), ((5104, 5109, 1), 8), ((7305, 7305, 1), 1),
    ((7312, 7354, 1), -3008), ((7357, 7359, 1), -3008), ((7680, 7828, 2), 1),
    ((7838, 7838, 1), -7615), ((7840, 7934, 2), 1), ((7944, 7951, 1), -8), ((7960, 7965, 1), -8),
    ((7976, 7983, 1), -8), ((7992, 7999, 1), -8), ((8008, 8013, 1), -8), ((8025, 8031, 2), -8),
    ((8040, 8047, 1), -8), ((8072, 8079, 1), -8), ((8088, 8095, 1), -8), ((8104, 8111, 1), -8),
    ((8120, 8121, 1), -8), ((8122, 8123, 1), -74), ((8124, 8124, 1), -9), ((8136, 8139, 1), -86),
    ((8140, 8140, 1), -9), ((8152, 8153, 1), -8), ((8154, 8155, 1), -100), ((8168, 8169, 1), -8),
    ((8170, 8171, 1), -112), ((8172, 8172, 1), -7), ((8184, 8185, 1), -128),
    ((8186, 8187, 1), -126), ((8188, 8188, 1), -9), ((8486, 8486, 1), -7517),
    ((8490, 8490, 1), -8383), ((8491, 8491, 1), -8262), ((8498, 8498, 1), 28),
    ((8544, 8559, 1), 16), ((8579, 8579, 1), 1), ((9398, 9423, 1), 26), ((11264, 11311, 1), 48),
    ((11360, 11360, 1), 1), ((11362, 11362, 1), -10743), ((11363, 11363, 1), -3814),
    ((11364, 11364, 1), -10727), ((11367, 11371, 2), 1), ((11373, 11373, 1), -10780),
    ((11374, 11374, 1), -10749), ((11375, 11375, 1), -10783), ((11376, 11376, 1), -10782),
    ((11378, 11378, 1), 1), ((11381, 11381, 1), 1), ((11390, 11391, 1), -10815),
    ((11392, 11490, 2), 1), ((11499, 11501, 2), 1), ((11506, 11506, 1), 1),
    ((42560, 42604, 2), 1), ((42624, 42650, 2), 1), ((42786, 42798, 2), 1),
    ((42802, 42862, 2), 1), ((42873, 42875, 2), 1), ((42877, 42877, 1), -35332),
    ((42878, 42886, 2), 1), ((42891, 42891, 1), 1), ((42893, 42893, 1), -42280),
    ((42896, 42898, 2), 1), ((42902, 42920, 2), 1), ((42922, 42922, 1), -42308),
    ((42923, 42923, 1), -42319), ((42924, 42924, 1), -42315), ((42925, 42925, 1), -42305),
    ((42926, 42926, 1), -42308), ((42928, 42928, 1), -42258), ((42929, 42929, 1), -42282),
    ((42930, 42930, 1), -42261), ((42931, 42931, 1), 928), ((42932, 42946, 2), 1),
    ((42948, 42948, 1), -48), ((42949, 42949, 1), -42307), ((42950, 42950, 1), -35384),
    ((42951, 42953, 2), 1), ((42955, 42955, 1), -42343), ((42956, 42956, 1), 1),
    ((42958, 42970, 2), 1), ((42972, 42972, 1), -42561),
    ((42997, 42997, 1), 1), ((65313, 65338, 1), 32), ((66560, 66599, 1), 40),
    ((66736, 66771, 1), 40), ((66928, 66938, 1), 39), ((66940, 66954, 1), 39),
    ((66956, 66962, 1), 39), ((66964, 66965, 1), 39), ((68736, 68786, 1), 64),
    ((68944, 68965, 1), 32), ((71840, 71871, 1), 32), ((93760, 93791, 1), 32),
    ((93856, 93880, 1), 27), ((125184, 125217, 1), 34)]

/-- The Unicode property `Uppercase`; a title-case letter is not a capital. -/
def isCapital (c : Char) : Bool :=
  if c.toNat < 128 then c.isUpper
  else capitals.any fun t => (run t).contains c.toNat

/-- The small form of a letter. The dotted capital I alone has a form of two characters. -/
def small (c : Char) : List Char :=
  if c.toNat < 128 then [c.toLower]
  else if c.toNat == 0x130 then ['i', Char.ofNat 0x307]
  else match smallForms.find? fun t => (run t.1).contains c.toNat with
    | some t => [Char.ofNat (Int.toNat (c.toNat + t.2))]
    | none => [c]

end TreeSchema.Text.LetterCase
