import Hygiene.Text.Ranges

/-!
# Upper and lower case

A character maps to one or more characters. Runs of characters that map alike are given by their first character, their
length, the step between them and the image of the first; characters with longer images are listed one by one. As in
tables of classes, each word counts from where the one before ends. A capital sigma at the end of a word has a form of
its own.
-/

namespace Hygiene.Text

/-- Characters `first`, `first + step`, … `last` that map to `image`, `image + step`, …. -/
structure CaseRun where
  first : Nat
  last : Nat
  step : Nat
  image : Nat

/-- Reads runs behind a character, each from a word `gap:length:step:image`, or `gap:image` for one character. -/
def CaseRun.ofWords (before : Nat) : List (List Char) → List CaseRun
  | [] => []
  | word :: words =>
    let run : CaseRun := match (splitOn [':'] word).map hexNumber with
      | [gap, length, step, image] => ⟨before + gap, before + gap + length, step, image⟩
      | [gap, image] => ⟨before + gap, before + gap, 1, image⟩
      | _ => ⟨1, 0, 1, 0⟩
    run :: ofWords run.last words

/-- The image of a character that the run holds. -/
def CaseRun.image? (run : CaseRun) (c : Char) : Option Char :=
  let n := c.toNat
  if run.first ≤ n ∧ n ≤ run.last ∧ (n - run.first) % run.step = 0 then
    some (Char.ofNat (run.image + (n - run.first)))
  else none

/-- A case mapping for the characters outside ASCII. -/
structure CaseMap where
  runs : List CaseRun
  long : List (Nat × List Char)

/-- Reads characters with longer images behind a character, each from a word `gap:image:…:image`. -/
def longImagesOfWords (before : Nat) : List (List Char) → List (Nat × List Char)
  | [] => []
  | word :: words =>
    match (splitOn [':'] word).map hexNumber with
    | [] => longImagesOfWords before words
    | gap :: images => (before + gap, images.map Char.ofNat) :: longImagesOfWords (before + gap) words

/-- The mapping that two tables list: runs, and characters with longer images. -/
def CaseMap.ofRows (runs long : List String) : CaseMap :=
  ⟨CaseRun.ofWords 0 (tableWords runs), longImagesOfWords 0 (tableWords long)⟩

/-- The image of a character; a character in no table is its own image. -/
def CaseMap.apply (m : CaseMap) (c : Char) : List Char :=
  match m.long.lookup c.toNat with
  | some image => image
  | none => [(m.runs.findSome? (·.image? c)).getD c]

/-- The upper case mapping. -/
def upperMap : CaseMap := .ofRows [
  "b5:39c 2b:16:1:c0 2:6:1:d8 1:178 2:2e:2:100 2:49 2:4:2:132 3:e:2:139 3:2c:2:14a 3:4:2:179 1:53 1:243 3:2:2:182",
  "3:187 4:18b 6:191 3:1f6 4:198 1:23d 1:a7dc 3:220 3:4:2:1a0 3:1a7 5:1ac 3:1af 4:2:2:1b3 3:1b8 4:1bc 2:1f7 6:1c4",
  "1:1c4 2:1c7 1:1c7 2:1ca 1:1ca 2:e:2:1cd 1:18e 2:10:2:1de 3:1f1 1:1f1 2:1f4 4:26:2:1f8 4:10:2:222 9:23b",
  "3:1:1:2c7e 2:241 5:8:2:246 1:2c6f 1:2c6d 1:2c70 1:181 1:186 2:1:1:189 2:18f 2:190 1:a7ab 4:193 1:a7ac 2:194",
  "1:a7cb 1:a78d 1:a7aa 2:197 1:196 1:a7ae 1:2c62 1:a7ad 3:19c 2:2c6e 1:19d 3:19f 8:2c64 3:1a6 2:a7c5 1:1a9 4:a7b1",
  "1:1ae 1:244 1:1:1:1b1 1:245 6:1b7 b:a7b2 1:a7b0 a7:399 2c:2:2:370 4:376 4:2:1:3fd 2f:386 1:2:1:388 2:10:1:391",
  "1:3a3 1:8:1:3a3 1:38c 1:1:1:38e 2:392 1:398 4:3a6 1:3a0 1:3cf 2:16:2:3d8 1:39a 1:3a1 1:3f9 1:37f 2:395 3:3f7",
  "3:3fa 35:1f:1:410 1:f:1:400 2:20:2:460 a:34:2:48a 3:c:2:4c1 1:4c0 2:5e:2:4d0 32:25:1:531 b4a:2a:1:1c90",
  "3:2:1:1cbd 2f9:5:1:13f0 883:412 1:414 1:41e 1:1:1:421 1:422 1:42a 1:462 1:a64a 2:1c89 ef:a77d 4:2c63 11:a7c6",
  "73:94:2:1e00 6:1e60 6:5e:2:1ea0 1:7:1:1f08 9:5:1:1f18 b:7:1:1f28 9:7:1:1f38 9:5:1:1f48 c:6:2:1f59 9:7:1:1f68",
  "9:1:1:1fba 1:3:1:1fc8 1:1:1:1fda 1:1:1:1ff8 1:1:1:1fea 1:1:1:1ffa 33:1:1:1fb8 d:399 12:1:1:1fd8 f:1:1:1fe8",
  "4:1fec 169:2132 22:f:1:2160 5:2183 34c:19:1:24b6 747:2f:1:2c00 2:2c60 4:23a 1:23e 2:4:2:2c67 7:2c72 3:2c75",
  "b:62:2:2c80 9:2:2:2ceb 5:2cf2 d:25:1:10a0 2:10c7 6:10cd 7914:2c:2:a640 14:1a:2:a680 88:c:2:a722 4:3c:2:a732",
  "b:2:2:a779 3:8:2:a77e 5:a78b 5:2:2:a790 1:a7c4 3:12:2:a796 c:e:2:a7b4 5:2:2:a7c7 3:e:2:a7cc 1b:a7f5 35d:a7b3",
  "1d:4f:1:13a0 5382:19:1:ff21 4ce:27:1:10400 89:23:1:104b0 9c:a:1:10570 2:e:1:1057c 2:6:1:1058c 2:1:1:10594",
  "704:32:1:10c80 7e:15:1:10d50 b3b:1f:1:118a0 5581:1f:1:16e40 3c:18:1:16ea0 7a4f:21:1:1e900"] [
  "df:53:53 6a:2bc:4e a7:4a:30c 1a0:399:308:301 20:3a5:308:301 1d7:535:552 190f:48:331 1:54:308 1:57:30a 1:59:30a",
  "1:41:2be b6:3a5:313 2:3a5:313:300 2:3a5:313:301 2:3a5:313:342 2a:1f08:399 1:1f09:399 1:1f0a:399 1:1f0b:399",
  "1:1f0c:399 1:1f0d:399 1:1f0e:399 1:1f0f:399 1:1f08:399 1:1f09:399 1:1f0a:399 1:1f0b:399 1:1f0c:399 1:1f0d:399",
  "1:1f0e:399 1:1f0f:399 1:1f28:399 1:1f29:399 1:1f2a:399 1:1f2b:399 1:1f2c:399 1:1f2d:399 1:1f2e:399 1:1f2f:399",
  "1:1f28:399 1:1f29:399 1:1f2a:399 1:1f2b:399 1:1f2c:399 1:1f2d:399 1:1f2e:399 1:1f2f:399 1:1f68:399 1:1f69:399",
  "1:1f6a:399 1:1f6b:399 1:1f6c:399 1:1f6d:399 1:1f6e:399 1:1f6f:399 1:1f68:399 1:1f69:399 1:1f6a:399 1:1f6b:399",
  "1:1f6c:399 1:1f6d:399 1:1f6e:399 1:1f6f:399 3:1fba:399 1:391:399 1:386:399 2:391:342 1:391:342:399 5:391:399",
  "6:1fca:399 1:397:399 1:389:399 2:397:342 1:397:342:399 5:397:399 6:399:308:300 1:399:308:301 3:399:342",
  "1:399:308:342 b:3a5:308:300 1:3a5:308:301 1:3a1:313 2:3a5:342 1:3a5:308:342 b:1ffa:399 1:3a9:399 1:38f:399",
  "2:3a9:342 1:3a9:342:399 5:3a9:399 db04:46:46 1:46:49 1:46:4c 1:46:46:49 1:46:46:4c 1:53:54 1:53:54 d:544:546",
  "1:544:535 1:544:53b 1:54e:546 1:544:53d"]

/-- The lower case mapping. -/
def lowerMap : CaseMap := .ofRows [
  "c0:16:1:e0 2:6:1:f8 22:2e:2:101 4:4:2:133 3:e:2:13a 3:2c:2:14b 2:ff 1:4:2:17a 4:253 1:2:2:183 2:254 1:188",
  "2:1:1:256 1:18c 3:1dd 1:259 1:25b 1:192 2:260 1:263 2:269 1:268 1:199 4:26f 1:272 2:275 1:4:2:1a1 2:280 1:1a8",
  "2:283 3:1ad 2:288 1:1b0 2:1:1:28a 1:2:2:1b4 2:292 1:1b9 4:1bd 8:1c6 1:1c6 2:1c9 1:1c9 2:1cc 1:10:2:1cc",
  "3:10:2:1df 3:1f3 1:2:2:1f3 2:195 1:1bf 1:26:2:1f9 2:19e 2:10:2:223 8:2c65 1:23c 2:19a 1:2c66 3:242 2:180 1:289",
  "1:28c 1:8:2:247 122:2:2:371 4:377 9:3f3 7:3ac 2:2:1:3ad 2:3cc 2:1:1:3cd 2:10:1:3b1 2:8:1:3c3 24:3d7 9:16:2:3d9",
  "6:3b8 3:3f8 2:3f2 1:3fb 3:2:1:37b 1:f:1:450 1:1f:1:430 31:20:2:461 a:34:2:48b 2:4cf 1:c:2:4c2 3:5e:2:4d1",
  "3:25:1:561 b4a:25:1:2d00 2:2d27 6:2d2d 2d3:4f:1:ab70 1:5:1:13f8 894:1c8a 7:2a:1:10d0 3:2:1:10fd 141:94:2:1e01",
  "a:df 2:5e:2:1ea1 a:7:1:1f00 9:5:1:1f10 b:7:1:1f20 9:7:1:1f30 9:5:1:1f40 c:6:2:1f51 9:7:1:1f60 19:7:1:1f80",
  "9:7:1:1f90 9:7:1:1fa0 9:1:1:1fb0 1:1:1:1f70 1:1fb3 c:3:1:1f72 1:1fc3 c:1:1:1fd0 1:1:1:1f76 d:1:1:1fe0 1:1:1:1f7a",
  "1:1fe5 c:1:1:1f78 1:1:1:1f7c 1:1ff3 12a:3c9 4:6b 1:e5 7:214e 2e:f:1:2170 14:2184 333:19:1:24d0 731:2f:1:2c30",
  "31:2c61 2:26b 1:1d7d 1:27d 3:4:2:2c68 2:251 1:271 1:250 1:252 2:2c73 3:2c76 9:1:1:23f 1:62:2:2c81 9:2:2:2cec",
  "5:2cf3 794e:2c:2:a641 14:1a:2:a681 88:c:2:a723 4:3c:2:a733 b:2:2:a77a 2:1d79 1:8:2:a77f 5:a78c 2:265 3:2:2:a791",
  "4:12:2:a797 2:266 1:25c 1:261 1:26c 1:26a 2:29e 1:287 1:29d 1:ab53 1:e:2:a7b5 2:a794 1:282 1:1d8e 1:2:2:a7c8",
  "2:264 1:e:2:a7cd 2:19b 19:a7f6 572c:19:1:ff41 4c6:27:1:10428 89:23:1:104d8 9d:a:1:10597 2:e:1:105a3 2:6:1:105b3",
  "2:1:1:105bb 6eb:32:1:10cc0 9e:15:1:10d70 b3b:1f:1:118c0 5581:1f:1:16e60 41:18:1:16ebb 7a48:21:1:1e922"] [
  "130:69:307"]

/-- The characters outside ASCII that have case. -/
def casedClass : CodeClass := .ofRows [
  "aa b 5 6-16 2-1e 2-c2 2-3 5-cf 3-22 8-1 1f-4 61 2b-3 3-1 3-3 2 7 2-2 2 2-13 2-52 2-8a 9-a5 2-25 a-28 b18-25 2 6",
  "3-2a 2-3 2a1-55 3-5 883-a 6-2a 3-2 41-bf 41-115 3-5 3-25 3-5 3-7 2 2 2 2-1e 3-34 2-6 2 4-2 2-6 4-3 3-5 5-c 6-2",
  "2-6 75 e 11-c 66 5 3-9 2 4-4 7 2 2 2-3 2-5 5 3-3 6-4 5 12-1f 4-1 332-33 717-e4 7-3 4-1 d-25 2 6 7913-2d 13-1d",
  "85-65 4-3 2-4c 15-5 2-2 336-2a 2-d 7-4f 4f41-6 d-4 40a-19 7-19 4a6-4f 61-23 5-23 75-a 2-e 2-6 2-1 2-a 2-e 2-6",
  "2-1 1c4 3-2 2-29 2-8 4c6-32 e-32 5e-15 b-15 b1b-3f 5561-3f 21-18 3-18 652d-54 2-46 2-1 3 3-1 3-3 2-b 2 2-6 2-40",
  "2-3 3-7 2-6 2-1b 2-3 2-4 2 4-6 2-153 3-18 2-18 2-1e 2-18 2-1e 2-18 2-1e 2-18 2-1e 2-18 2-7 735-9 2-13 7-5 106-3d",
  "893-43 7ed-19 7-19 7-19"]

/-- The characters outside ASCII that are passed over when the end of a word is sought. -/
def caseIgnorableClass : CodeClass := .ofRows [
  "a8 5 2 5 3-1 1f8-bf 5-1 5 a-1 2 fc-6 d0 6 32-2c 2 2-1 2-1 2 2d c-5 b-a 2 24 b-14 11 66-7 2-9 2-3 22 2 1f-1a 5c-a",
  "3b-a 5 3 19-17 2c-2 2d 8-1 6-8 2a-39 38 2 5-7 5 4-6 b-1 e 10 3b 5-3 9 15-1 1b 3-1 3a 5-1 5-1 3-2 4 1f-1 4 c-1 3a",
  "5-4 2-1 5 15-1 17-5 2 3b 3 2-3 9 8-1 c-1 1f 3e d 33 4 38 2-2 6-2 2-3 8-1 c-1 1e 3b 3 7 6-1 15-1 1d-1 3a-1 5-3 9",
  "15-1 1e 49 8-2 2 5b 3-6 c-8 63 3-8 a 2-6 4a-1 1c 2 2 38-d 2-4 2-1 6-a 2-23 a 67-3 2-5 2-1 3-1 1a-1 5-2 11-3 e",
  "3-1 7 10 5f 261-2 3b3-2 1e-1 1f-1 1f-1 41-1 2-6 9 3-a 4 6 2e-4 34 42-1 23 77-2 5-1 a 7-2 dc-1 3 3b 2-6 2 2 3-7",
  "7-9 3 28 9-2d 3-b 15-3 31 2-4 2 6 29-8 d-1 21-3 3-1 2-2 39 2-1 4 2-2 3b-7 3-1 41-5 53-2 2-c 2-6 5 7 4-1 33-3e e",
  "23-64 1be 2-2 c-2 e-2 e-2 e-1 d-4 9-1 b 3 3-4 32-4 2-9 2 e 11-c 34-20 b8c-1 72-2 7e 10 61-1f 30 1d6 25-3 4-4 6",
  "5e-5 5e-2 6f17 4e3-5 10f 63-3 2-9 2 1d-3 51-1 f-21 4f 18-2 67-3 4-1 9 4 5 1a-1 6 98-1 1b-11 e 27-7 1a-a 2f-2 31",
  "3-3 3-1 12 16-1 43-5 3-1 3-1 d 9 24 c 34 2-2 3-1 6-1 2 1c f-1 6-1 2 65-4 a-2 7a 3 5 4f31 94-10 23e-f 4 d-f 23 3",
  "aa 8 7 c 24 2 30 2e-1 44 16-2 202 e3 96-4 406-5 2-29 2-8 247-2 2-1 6-3 29-2 5 a6-1 23e-3 27 1b-4 2 13c-1 19 35-5",
  "47-a 32-3 7c 37-e 2a 3-1 b-2 32-3 3-1 3 5 b 33-2 25-4 2-7 3f d-1 35-8 b-3 3 60-2 3 2-1 7 3 9e 4-7 16-1 3a-1 4",
  "26-6 4-4 47-5 e 2 2 f-1 56-7 3-2 2 18 55-5 2 5-1 2-1 ef-3 7-1 2-1 1c-1 56-7 3 2-1 6b 2 3-5 2 66 2 3-3 2-4 104-8",
  "2-1 101-1 2 5 91-3 3-1 5 21-9 29-5 3-3 9 a-5 3-2 2f-c 2-1 c7 2-2 2 ca-6 2-5 2 53-15 3-6 2-1 2-1 7b-5 4 2-1 2-6 2",
  "49-1 4 2 42 11a-1 c-1 35-4 6 2 18 14d6-10 7-e 2cc9-b 4-2 9c1-4 3c-6 a-3 1fd-2 29-1 1e3 40-10 41-1 2-1 e-1 3ffd-3",
  "2-6 2-1 c9f-1 2-3 125d-2d 3-16 221-2 a-f 3-6 1f-3 95-2 7bc-36 5-31 9 f 17-4 2-e 551-6 2-10 3-6 2-1 2-4 6-3d 22",
  "a1-d 171 3e-3 1fc-4 ff-1 f4 3 8-1 6 a 1d1-6 6e-7 ab0-4 c0c02 1f-5f 81-ef"]

/-- Whether a character is a letter with case, or counts as one. -/
def isCased (c : Char) : Bool :=
  if isAscii c then c.isAlpha else casedClass.contains c

/-- Whether a character is passed over when the end of a word is sought. -/
def isCaseIgnorable (c : Char) : Bool :=
  if isAscii c then ['\'', '.', ':', '^', '`'].contains c else caseIgnorableClass.contains c

/-- The upper case form of a character. -/
def upperChar (c : Char) : List Char :=
  if isAscii c then [c.toUpper] else upperMap.apply c

/-- The lower case form of a character, wherever it stands. -/
def lowerChar (c : Char) : List Char :=
  if isAscii c then [c.toLower] else lowerMap.apply c

/-- Whether the first character that is not passed over has case. -/
def meetsCased (cs : List Char) : Bool :=
  match cs.dropWhile isCaseIgnorable with
  | [] => false
  | c :: _ => isCased c

/-- The upper case form of a text. -/
def toUpper (cs : List Char) : List Char := cs.flatMap upperChar

/-- The lower case form of the text `after`, which follows `before` (held in reverse). A capital sigma that ends a word
becomes a final sigma. -/
def lowerAfter (before : List Char) : List Char → List Char
  | [] => []
  | c :: after =>
    let image :=
      if c = 'Σ' then [if meetsCased before && !meetsCased after then 'ς' else 'σ'] else lowerChar c
    image ++ lowerAfter (c :: before) after

/-- The lower case form of a text. -/
def toLower (cs : List Char) : List Char := lowerAfter [] cs

end Hygiene.Text
