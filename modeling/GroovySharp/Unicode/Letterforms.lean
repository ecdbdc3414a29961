import GroovySharp.Unicode.Ranges

/-!
# Upper and lower case

The upper-case letters of Unicode 14 and its two case maps. Of a range, a run holds every `step`-th code
point, with its step third; a mapped run also gives the image of its first code point, and the other
members move by the same distance. Characters with an image of several letters are listed apart.
-/

namespace GroovySharp.Unicode

def capitals : List (Nat × Nat × Nat) := runsFrom 0 [
  65,25,1,101,22,1,1,6,1,33,54,2,2,14,2,2,46,2,0,4,2,3,1,1,1,2,2,0,2,2,
  0,1,1,2,3,1,1,1,1,1,2,1,3,1,1,1,1,1,1,4,2,0,2,2,2,2,2,0,2,2,0,1,1,
  1,2,2,0,0,1,3,0,1,7,0,1,2,0,1,2,0,1,2,14,2,2,16,2,2,0,1,2,2,2,0,1,
  1,1,56,2,7,1,1,1,1,1,2,2,2,0,2,1,1,6,2,289,2,2,3,0,1,8,0,1,6,2,2,0,
  1,1,1,2,2,0,2,2,0,15,1,1,8,1,35,0,1,2,2,1,3,22,2,5,0,1,2,2,2,0,0,1,
  2,50,1,48,32,2,9,54,2,0,12,2,2,94,2,2,37,1,2889,37,1,1,0,1,5,0,1,722,
  85,1,2202,42,1,2,2,1,320,148,2,9,96,2,9,7,1,8,5,1,10,7,1,8,7,1,8,5,1,
  11,6,2,8,7,1,72,3,1,12,3,1,12,3,1,12,4,1,11,3,1,262,0,1,4,0,1,3,2,1,
  2,2,1,2,0,1,3,4,1,6,6,2,0,2,1,2,3,1,10,1,1,5,0,1,26,15,1,19,0,1,818,
  25,1,1840,47,1,48,2,2,0,1,1,2,6,2,0,2,1,1,0,1,2,0,1,8,2,1,1,96,2,8,
  2,2,4,0,1,31053,44,2,19,26,2,135,12,2,3,60,2,10,4,2,0,8,2,4,2,2,2,2,2,
  3,20,2,0,3,1,1,4,1,1,14,2,0,2,1,1,0,1,6,0,1,5,2,2,28,0,1,22315,25,1,
  1221,39,1,136,35,1,156,10,1,1,14,1,1,6,1,1,1,1,1770,50,1,3053,31,1,21888,
  31,1,26016,25,1,26,25,1,26,25,1,26,2,2,0,0,1,2,0,1,2,1,1,2,3,1,1,7,1,
  26,25,1,26,1,1,1,3,1,2,7,1,1,6,1,27,1,1,1,3,1,1,4,1,1,0,1,3,6,1,27,
  25,1,26,25,1,26,25,1,26,25,1,26,25,1,26,25,1,30,24,1,33,24,1,33,24,1,33,
  24,1,33,24,1,33,0,1,4405,33,1,2062,25,1,6,25,1,6,25,1]

def upperRuns : List (Nat × Nat × Nat × Nat) := mappedFrom 0 [
  97,25,1,65,58,0,1,924,42,22,1,192,1,6,1,216,0,0,1,376,1,46,2,256,1,0,1,
  73,1,4,2,306,2,14,2,313,2,44,2,330,2,4,2,377,0,0,1,83,0,0,1,579,2,2,2,
  386,2,0,1,391,3,0,1,395,5,0,1,401,2,0,1,502,3,0,1,408,0,0,1,573,3,0,1,
  544,2,4,2,416,2,0,1,423,4,0,1,428,2,0,1,431,3,2,2,435,2,0,1,440,3,0,1,
  444,1,0,1,503,5,0,1,452,0,0,1,452,1,0,1,455,0,0,1,455,1,0,1,458,0,0,1,
  458,1,14,2,461,0,0,1,398,1,16,2,478,2,0,1,497,0,0,1,497,1,0,1,500,3,38,
  2,504,3,16,2,546,8,0,1,571,2,1,1,11390,1,0,1,577,4,8,2,582,0,0,1,11375,
  0,0,1,11373,0,0,1,11376,0,0,1,385,0,0,1,390,1,1,1,393,1,0,1,399,1,0,1,
  400,0,0,1,42923,3,0,1,403,0,0,1,42924,1,0,1,404,1,0,1,42893,0,0,1,42922,
  1,0,1,407,0,0,1,406,0,0,1,42926,0,0,1,11362,0,0,1,42925,2,0,1,412,1,0,1,
  11374,0,0,1,413,2,0,1,415,7,0,1,11364,2,0,1,422,1,0,1,42949,0,0,1,425,3,
  0,1,42929,0,0,1,430,0,0,1,580,0,1,1,433,0,0,1,581,5,0,1,439,10,0,1,
  42930,0,0,1,42928,166,0,1,921,43,2,2,880,3,0,1,886,3,2,1,1021,46,0,1,902,
  0,2,1,904,1,16,1,913,0,0,1,931,0,8,1,931,0,0,1,908,0,1,1,910,1,0,1,914,
  0,0,1,920,3,0,1,934,0,0,1,928,0,0,1,975,1,22,2,984,0,0,1,922,0,0,1,929,
  0,0,1,1017,0,0,1,895,1,0,1,917,2,0,1,1015,2,0,1,1018,52,31,1,1040,0,15,
  1,1024,1,32,2,1120,9,52,2,1162,2,12,2,1217,0,0,1,1216,1,94,2,1232,49,37,1,
  1329,2889,42,1,7312,2,2,1,7357,760,5,1,5104,2178,0,1,1042,0,0,1,1044,0,0,1,
  1054,0,1,1,1057,0,0,1,1058,0,0,1,1066,0,0,1,1122,0,0,1,42570,240,0,1,
  42877,3,0,1,11363,16,0,1,42950,114,148,2,7680,5,0,1,7776,5,94,2,7840,0,7,1,
  7944,8,5,1,7960,10,7,1,7976,8,7,1,7992,8,5,1,8008,11,6,2,8025,8,7,1,8040,
  8,1,1,8122,0,3,1,8136,0,1,1,8154,0,1,1,8184,0,1,1,8170,0,1,1,8186,50,1,
  1,8120,12,0,1,921,17,1,1,8152,14,1,1,8168,3,0,1,8172,360,0,1,8498,33,15,1,
  8544,4,0,1,8579,843,25,1,9398,1862,47,1,11264,1,0,1,11360,3,0,1,570,0,0,1,
  574,1,4,2,11367,6,0,1,11378,2,0,1,11381,10,98,2,11392,8,2,2,11499,4,0,1,
  11506,12,37,1,4256,1,0,1,4295,5,0,1,4301,30995,44,2,42560,19,26,2,42624,135,
  12,2,42786,3,60,2,42802,10,2,2,42873,2,8,2,42878,4,0,1,42891,4,2,2,42896,0,
  0,1,42948,2,18,2,42902,11,14,2,42932,4,2,2,42951,6,0,1,42960,5,2,2,42966,
  28,0,1,42997,860,0,1,42931,28,79,1,5024,21377,25,1,65313,1229,39,1,66560,136,
  35,1,66736,155,10,1,66928,1,14,1,66940,1,6,1,66956,1,1,1,66964,1795,50,1,
  68736,3021,31,1,71840,21888,31,1,93760,31394,33,1,125184]

def upperWords : List (Nat × List Nat) := [ (223,[83,83]),(329,[700,78]),(496,[74,780]),(912,[921,776,769]),
  (944,[933,776,769]),(1415,[1333,1362]),(7830,[72,817]),(7831,[84,776]),
  (7832,[87,778]),(7833,[89,778]),(7834,[65,702]),(8016,[933,787]),
  (8018,[933,787,768]),(8020,[933,787,769]),(8022,[933,787,834]),(8114,[8122,921]),
  (8115,[913,921]),(8116,[902,921]),(8118,[913,834]),(8119,[913,834,921]),
  (8124,[913,921]),(8130,[8138,921]),(8131,[919,921]),(8132,[905,921]),
  (8134,[919,834]),(8135,[919,834,921]),(8140,[919,921]),(8146,[921,776,768]),
  (8147,[921,776,769]),(8150,[921,834]),(8151,[921,776,834]),(8162,[933,776,768]),
  (8163,[933,776,769]),(8164,[929,787]),(8166,[933,834]),(8167,[933,776,834]),
  (8178,[8186,921]),(8179,[937,921]),(8180,[911,921]),(8182,[937,834]),
  (8183,[937,834,921]),(8188,[937,921]),(64256,[70,70]),(64257,[70,73]),
  (64258,[70,76]),(64259,[70,70,73]),(64260,[70,70,76]),(64261,[83,84]),
  (64262,[83,84]),(64275,[1348,1350]),(64276,[1348,1333]),(64277,[1348,1339]),
  (64278, [1358, 1350]), (64279, [1348, 1341])] ++
  [(8064, 7944), (8072, 7944), (8080, 7976), (8088, 7976), (8096, 8040), (8104, 8040)].flatMap
    fun (first, image) => (List.range 8).map fun i => (first + i, [image + i, 921])

/-- The lower-case map undoes the upper-case map, except on the runs that stand first. -/
def lowerRuns : List (Nat × Nat × Nat × Nat) := [ (452,452,1,454),(453,453,1,454),(455,455,1,457),(456,456,1,457),
  (458,458,1,460),(459,459,1,460),(497,497,1,499),(498,498,1,499),
  (921,921,1,953),(924,924,1,956),(931,931,1,963),(1012,1012,1,952),
  (7838,7838,1,223),(8072,8079,1,8064),(8088,8095,1,8080),(8104,8111,1,8096),
  (8124,8124,1,8115),(8140,8140,1,8131),(8188,8188,1,8179),(8486,8486,1,969),
  (8490, 8490, 1, 107), (8491, 8491, 1, 229), (42570, 42570, 1, 42571)] ++
  upperRuns.map fun (first, last, step, image) => (image, image + (last - first), step, first)

def lowerWords : List (Nat × List Nat) := [ (0x130, [0x69, 0x307])]

end GroovySharp.Unicode
