/-
  Report/Findings.lean --- the machine-readable reports of `runtime/redzone_rt.c`.

  `jsonFinding` and `sarifDoc` write a finding as JSON and as SARIF, byte by byte and with
  an escape for each byte of a string.  `Seen` and `SarifResult` are what a reader of the
  two documents finds in them.

  The proof goes through the value that a document should have: the text is derived for
  it (`derives_jsonFinding`, `derives_sarifDoc`), and reading it gives back what was
  written.  The decoder of the library then does both at once.
-/
import Redzone.Foundation.Json
import Mathlib.Data.List.DropRight

set_option autoImplicit false

namespace Redzone.Report

open Redzone.Foundation
open Redzone.Foundation.Json

/-! ## Findings -/

/-- `Finding`. -/
structure Finding where
  kind : CStr
  isWrite : ℤ
  size : UInt64
  addr : UInt64
  file : Option CStr
  line : ℤ
  hasRegion : Bool
  regionSize : UInt64
  freed : Bool
  allocFile : Option CStr
  allocLine : ℤ
  withStack : Bool

/-- One return address of the call stack, with what the system says about it. -/
structure Frame where
  /-- Its string in the array of `backtrace_symbols`. -/
  sym : CStr
  /-- `dladdr`: the name of its image, if name and base are known. -/
  image : Option CStr
  /-- What `fgets` got from the symbolizer, if it could be started and printed anything. -/
  answer : Option CStr

/-- The call stack at a report. -/
structure Trace where
  /-- `rz_symbolize_on` -/
  symbolizeOn : Bool
  /-- The array of `backtrace_symbols`, which may be `NULL`. -/
  syms : Option (List Frame)

/-- The line end that `fgets` leaves. -/
def isLineEnd (c : UInt8) : Bool := c == 10 || c == 13

/-- `symbolize_frame`. -/
def symbolizeFrame (fr : Frame) : Option Text :=
  match fr.image with
  | none => none
  | some fname =>
    -- a quote would break the shell command
    if 39 ∈ fname.bytes then none
    else
      match fr.answer with
      | none => none
      | some got =>
        let buf := got.bytes.rdropWhile isLineEnd
        if buf = [] ∨ ascii "??" <:+: buf ∨ ascii "0x" <+: buf then none else some buf

/-- `capture_trace`: where the frames of the program start, just past the last frame of
an entry point of the runtime. -/
def captureTrace (syms : List Frame) : ℕ :=
  syms.zipIdx.foldl (fun s p => if ascii "__redzone_" <:+: p.1.sym.bytes then p.2 + 1 else s) 0

/-- `trim_frame`. -/
def trimFrame (s : Text) : Text :=
  let s := s.dropWhile (· == 32)
  if s.head?.any isDigit then (s.dropWhile isDigit).dropWhile (· == 32) else s

/-- The text that a report has for a frame. -/
def frameText (tr : Trace) (fr : Frame) : Text :=
  match if tr.symbolizeOn then symbolizeFrame fr else none with
  | some buf => buf
  | none => trimFrame fr.sym.bytes

/-! ## Writing -/

/-- One byte of a string. -/
def escapeByte (c : UInt8) : Text :=
  match c with
  | 34 => ascii "\\\""
  | 92 => ascii "\\\\"
  | 10 => ascii "\\n"
  | 13 => ascii "\\r"
  | 9 => ascii "\\t"
  | c => if c < 0x20 then ascii "\\u" ++ (numeral 16 c.toNat).leftpad 4 48 else [c]

/-- `json_str`. -/
def jsonStr (s : Text) : Text := ascii "\"" ++ s.flatMap escapeByte ++ ascii "\""

/-- `print_trace_json`. -/
def printTraceJson (tr : Trace) : Text :=
  match tr.syms with
  | none => []
  | some syms =>
    if syms.length ≤ captureTrace syms then []
    else
      ascii ",\"stack\":[" ++
        commaList (fun fr => jsonStr (frameText tr fr)) (syms.drop (captureTrace syms)) ++ ascii "]"

/-- A file with a line, after the key that says what it is. -/
def jsonPlace (file : CStr) (line : ℤ) : Text :=
  ascii ":\x7b\"file\":" ++ jsonStr file.bytes ++ ascii ",\"line\":" ++ decimal line ++ ascii "\x7d"

/-- `json_finding`. -/
def jsonFinding (tr : Trace) (fd : Finding) : Text :=
  ascii "\x7b\"tool\":\"redzone\",\"error\":" ++ jsonStr fd.kind.bytes ++
    (if 0 ≤ fd.isWrite then
      ascii ",\"access\":\"" ++ ascii (if fd.isWrite ≠ 0 then "write" else "read") ++ ascii "\""
    else []) ++
    ascii ",\"size\":" ++ numeral 10 fd.size.toNat ++
    (if fd.addr ≠ 0 then ascii ",\"address\":\"0x" ++ numeral 16 fd.addr.toNat ++ ascii "\""
    else []) ++
    (match fd.file with
    | some file => ascii ",\"location\"" ++ jsonPlace file fd.line
    | none => []) ++
    (if fd.hasRegion then
      ascii ",\"region\":\x7b\"size\":" ++ numeral 10 fd.regionSize.toNat ++
        (if fd.freed then ascii ",\"freed\":true" else []) ++
        (match fd.allocFile with
        | some file => ascii ",\"allocated\"" ++ jsonPlace file fd.allocLine
        | none => []) ++
        ascii "\x7d"
    else []) ++
    (if fd.withStack then printTraceJson tr else []) ++ ascii "\x7d"

/-- The message of a SARIF result, in a buffer of 256 bytes. -/
def sarifMessage (fd : Finding) : Text :=
  (if 0 ≤ fd.isWrite then
    ascii (if fd.isWrite ≠ 0 then "WRITE" else "READ") ++ ascii " of size " ++
      numeral 10 fd.size.toNat ++ ascii " (" ++ fd.kind.bytes ++ ascii ")"
  else numeral 10 fd.size.toNat ++ ascii " byte(s) (" ++ fd.kind.bytes ++ ascii ")").take 255

/-- One result of `sarif_doc`. -/
def sarifResult (fd : Finding) : Text :=
  ascii "\x7b\"ruleId\":" ++ jsonStr fd.kind.bytes ++
    ascii ",\"level\":\"error\",\"message\":\x7b\"text\":" ++ jsonStr (sarifMessage fd) ++
    ascii "\x7d" ++
    (match fd.file with
    | some file =>
      ascii ",\"locations\":[\x7b\"physicalLocation\":\x7b\"artifactLocation\":\x7b\"uri\":" ++
        jsonStr file.bytes ++ ascii "\x7d,\"region\":\x7b\"startLine\":" ++ decimal fd.line ++
        ascii "\x7d\x7d\x7d]"
    | none => []) ++
    ascii "\x7d"

/-- `sarif_doc`. -/
def sarifDoc (fds : List Finding) : Text :=
  ascii "\x7b\"version\":\"2.1.0\",\"$schema\":" ++
    ascii "\"https://raw.githubusercontent.com/oasis-tcs/sarif-spec/master/" ++
    ascii "Schemata/sarif-schema-2.1.0.json\",\"runs\":[\x7b\"tool\":\x7b\"driver\":\x7b" ++
    ascii "\"name\":\"redzone\",\"informationUri\":" ++
    ascii "\"https://github.com/nktkt/redzone\",\"rules\":[]\x7d\x7d,\"results\":[" ++
    commaList sarifResult fds ++ ascii "]\x7d]\x7d\n"

/-! ## Reading -/

/-- Place of a source line. -/
structure Place where
  file : Text
  line : ℤ
  deriving DecidableEq

/-- Region of a finding. -/
structure Region where
  size : ℕ
  freed : Bool
  allocated : Option Place
  deriving DecidableEq

/-- What a JSON report says. -/
structure Seen where
  error : Text
  access : Option Bool
  size : ℕ
  address : Option ℕ
  location : Option Place
  region : Option Region
  stack : Option (List Text)
  deriving DecidableEq

/-- The frames that are reported, if there is one. -/
def Trace.frames (tr : Trace) : Option (List Text) :=
  match tr.syms with
  | none => none
  | some syms =>
    if syms.length ≤ captureTrace syms then none
    else some ((syms.drop (captureTrace syms)).map (frameText tr))

/-- The parts of a finding. -/
def Finding.seen (fd : Finding) (tr : Trace) : Seen where
  error := fd.kind.bytes
  access := if 0 ≤ fd.isWrite then some (fd.isWrite ≠ 0) else none
  size := fd.size.toNat
  address := if fd.addr ≠ 0 then some fd.addr.toNat else none
  location := fd.file.map fun file => ⟨file.bytes, fd.line⟩
  region :=
    if fd.hasRegion then
      some ⟨fd.regionSize.toNat, fd.freed, fd.allocFile.map fun file => ⟨file.bytes, fd.allocLine⟩⟩
    else none
  stack := if fd.withStack then tr.frames else none

/-- The member of an object. -/
def member (k : String) : Json → Option Json
  | .obj ms => ms.lookup (ascii k)
  | _ => none

/-- A string. -/
def asStr : Json → Option Text
  | .str s => some s
  | _ => none

/-- A number. -/
def asNum : Json → Option ℤ
  | .num n => some n
  | _ => none

/-- A number that is not negative. -/
def asNat : Json → Option ℕ
  | .num (.ofNat n) => some n
  | _ => none

/-- The elements of an array, each of them read. -/
def asList {α : Type} (read : Json → Option α) : Json → Option (List α)
  | .arr xs => xs.mapM read
  | _ => none

/-- A member that may be missing, and is read if it is there. -/
def optional {α : Type} (read : Json → Option α) : Option Json → Option (Option α)
  | none => some none
  | some v => (read v).map some

/-- An access, by its name. -/
def readAccess (v : Json) : Option Bool :=
  (asStr v).bind fun s =>
    if s = ascii "write" then some true else if s = ascii "read" then some false else none

/-- An address, after `0x`. -/
def readAddress (v : Json) : Option ℕ :=
  match v with
  | .str (48 :: 120 :: digits) => some (numeralValue 16 digits)
  | _ => none

/-- A member that is there to say yes. -/
def readFlag (v : Json) : Option Unit :=
  match v with
  | .bool true => some ()
  | _ => none

/-- A file with a line. -/
def Place.ofJson (v : Json) : Option Place := do
  let file ← (member "file" v).bind asStr
  let line ← (member "line" v).bind asNum
  return ⟨file, line⟩

/-- A region. -/
def Region.ofJson (v : Json) : Option Region := do
  let size ← (member "size" v).bind asNat
  let freed ← optional readFlag (member "freed" v)
  let allocated ← optional Place.ofJson (member "allocated" v)
  return ⟨size, freed.isSome, allocated⟩

/-- A finding. -/
def Seen.ofJson (v : Json) : Option Seen := do
  let error ← (member "error" v).bind asStr
  let access ← optional readAccess (member "access" v)
  let size ← (member "size" v).bind asNat
  let address ← optional readAddress (member "address" v)
  let location ← optional Place.ofJson (member "location" v)
  let region ← optional Region.ofJson (member "region" v)
  let stack ← optional (asList asStr) (member "stack" v)
  return ⟨error, access, size, address, location, region, stack⟩

/-- What a result of a SARIF report says. -/
structure SarifResult where
  ruleId : Text
  access : Option Bool
  size : ℕ
  location : Option Place
  deriving DecidableEq

/-- Access and size, from the message. -/
def readMessage (m : Text) : Option Bool × ℕ :=
  if ascii "WRITE of size " <+: m then
    (some true, numeralValue 10 ((m.drop 14).takeWhile isDigit))
  else if ascii "READ of size " <+: m then
    (some false, numeralValue 10 ((m.drop 13).takeWhile isDigit))
  else (none, numeralValue 10 (m.takeWhile isDigit))

/-- The location of a SARIF result. -/
def readLocation (v : Json) : Option Place := do
  let physical ← member "physicalLocation" v
  let uri ← ((member "artifactLocation" physical).bind (member "uri")).bind asStr
  let line ← ((member "region" physical).bind (member "startLine")).bind asNum
  return ⟨uri, line⟩

/-- The only element of an array. -/
def onlyElement : Json → Option Json
  | .arr [v] => some v
  | _ => none

/-- A result. -/
def SarifResult.ofJson (v : Json) : Option SarifResult := do
  let ruleId ← (member "ruleId" v).bind asStr
  let text ← ((member "message" v).bind (member "text")).bind asStr
  let location ← optional (fun v => (onlyElement v).bind readLocation) (member "locations" v)
  return ⟨ruleId, (readMessage text).1, (readMessage text).2, location⟩

/-- The results of the only run of a SARIF document. -/
def sarifResults (v : Json) : Option (List SarifResult) :=
  (((member "runs" v).bind onlyElement).bind (member "results")).bind (asList SarifResult.ofJson)

/-- The parts of a finding that a SARIF report has. -/
def Finding.result (fd : Finding) : SarifResult where
  ruleId := fd.kind.bytes
  access := if 0 ≤ fd.isWrite then some (fd.isWrite ≠ 0) else none
  size := fd.size.toNat
  location := fd.file.map fun file => ⟨file.bytes, fd.line⟩

/-! ## The values of the documents -/

/-- A file with a line. -/
def Place.toJson (p : Place) : Json :=
  .obj [(ascii "file", .str p.file), (ascii "line", .num p.line)]

/-- The name of an access. -/
def accessJson (write : Bool) : Json := .str (ascii (if write then "write" else "read"))

/-- A region. -/
def Region.toJson (r : Region) : Json :=
  .obj ([(ascii "size", .num r.size)] ++
    opt (ascii "freed") (if r.freed then some (.bool true) else none) ++
    opt (ascii "allocated") (r.allocated.map Place.toJson))

/-- The members of a finding, in the order in which they are printed. -/
def Seen.members (s : Seen) : List (Text × Json) :=
  [(ascii "tool", .str (ascii "redzone")), (ascii "error", .str s.error)] ++
    opt (ascii "access") (s.access.map accessJson) ++ [(ascii "size", .num s.size)] ++
    opt (ascii "address") (s.address.map fun a => .str (48 :: 120 :: numeral 16 a)) ++
    opt (ascii "location") (s.location.map Place.toJson) ++
    opt (ascii "region") (s.region.map Region.toJson) ++
    opt (ascii "stack") (s.stack.map fun frames => .arr (frames.map .str))

section Reading

variable {k : String} {v : Json} {ms ms' : List (Text × Json)}

theorem member_obj : member k (.obj ms) = ms.lookup (ascii k) := rfl

theorem lookup_cons' {k k' : Text} :
    ((k', v) :: ms).lookup k = if k = k' then some v else ms.lookup k := by
  rw [List.lookup_cons]
  split
  · rename_i heq
    rw [if_pos (beq_iff_eq.mp heq)]
  · rename_i heq
    rw [if_neg (beq_eq_false_iff_ne.mp heq)]

/-- An optional member that is printed by `toJson` is read back. -/
theorem optional_map {α : Type} {read : Json → Option α} {toJson : α → Json}
    (h : ∀ x, read (toJson x) = some x) (o : Option α) :
    optional read (o.map toJson) = some o := by
  cases o with
  | none => rfl
  | some x => exact congrArg (Option.map some) (h x)

theorem asList_map {α β : Type} {read : Json → Option β} {toJson : α → Json} {f : α → β}
    (h : ∀ x, read (toJson x) = some (f x)) (l : List α) :
    asList read (.arr (l.map toJson)) = some (l.map f) := by
  show (l.map toJson).mapM read = some (l.map f)
  induction l with
  | nil => rfl
  | cons x l ih =>
    rw [List.map_cons, List.mapM_cons, h x, ih]
    rfl

theorem asList_asStr (l : List Text) : asList asStr (.arr (l.map .str)) = some l := by
  have h : ∀ s, asStr (.str s) = some s := fun _ => rfl
  rw [asList_map h, List.map_id']

theorem Place.ofJson_toJson (p : Place) : Place.ofJson p.toJson = some p := rfl

theorem readAccess_accessJson (write : Bool) : readAccess (accessJson write) = some write := by
  cases write <;> rfl

theorem readAddress_numeral (a : ℕ) : readAddress (.str (48 :: 120 :: numeral 16 a)) = some a := by
  show some (numeralValue 16 (numeral 16 a)) = some a
  rw [numeralValue_numeral (by decide) (by decide)]

theorem Region.ofJson_toJson (r : Region) : Region.ofJson r.toJson = some r := by
  obtain ⟨size, freed, allocated⟩ := r
  have hsize : member "size" (Region.toJson ⟨size, freed, allocated⟩) = some (.num size) := by
    simp +decide only [Region.toJson, member_obj, List.lookup_append, lookup_cons', lookup_opt]
    rfl
  have hfreed : member "freed" (Region.toJson ⟨size, freed, allocated⟩) =
      if freed then some (.bool true) else none := by
    simp +decide only [Region.toJson, member_obj, List.lookup_append, lookup_cons', lookup_opt]
    simp
  have halloc : member "allocated" (Region.toJson ⟨size, freed, allocated⟩) =
      allocated.map Place.toJson := by
    simp +decide only [Region.toJson, member_obj, List.lookup_append, lookup_cons', lookup_opt]
    simp
  unfold Region.ofJson
  rw [hsize, hfreed, halloc, optional_map Place.ofJson_toJson]
  cases freed <;> rfl

/-- Reading a finding gives back its parts. -/
theorem Seen.ofJson_members (s : Seen) : Seen.ofJson (.obj s.members) = some s := by
  have herror : member "error" (.obj s.members) = some (.str s.error) := by
    simp +decide only [Seen.members, member_obj, List.lookup_append, lookup_cons', lookup_opt]
    rfl
  have haccess : member "access" (.obj s.members) = s.access.map accessJson := by
    simp +decide only [Seen.members, member_obj, List.lookup_append, lookup_cons', lookup_opt]
    simp
  have hsize : member "size" (.obj s.members) = some (.num s.size) := by
    simp +decide only [Seen.members, member_obj, List.lookup_append, lookup_cons', lookup_opt]
    simp
  have haddress : member "address" (.obj s.members) =
      s.address.map fun a => .str (48 :: 120 :: numeral 16 a) := by
    simp +decide only [Seen.members, member_obj, List.lookup_append, lookup_cons', lookup_opt]
    simp
  have hlocation : member "location" (.obj s.members) = s.location.map Place.toJson := by
    simp +decide only [Seen.members, member_obj, List.lookup_append, lookup_cons', lookup_opt]
    simp
  have hregion : member "region" (.obj s.members) = s.region.map Region.toJson := by
    simp +decide only [Seen.members, member_obj, List.lookup_append, lookup_cons', lookup_opt]
    simp
  have hstack : member "stack" (.obj s.members) =
      s.stack.map fun frames => .arr (frames.map .str) := by
    simp +decide only [Seen.members, member_obj, List.lookup_append, lookup_cons', lookup_opt]
    simp
  unfold Seen.ofJson
  rw [herror, haccess, hsize, haddress, hlocation, hregion, hstack,
    optional_map readAccess_accessJson, optional_map readAddress_numeral,
    optional_map Place.ofJson_toJson, optional_map Region.ofJson_toJson, optional_map asList_asStr]
  rfl

end Reading

/-! ## What is written is derived -/

section Writing

variable {c : UInt8} {s t : Text} {ms : List (Text × Json)} {tr : Trace} {fd : Finding}

/-- The escape by code, of the characters that have no other. -/
theorem chars_code (h : c < 32) :
    Chars [c] (ascii "\\u" ++ (numeral 16 c.toNat).leftpad 4 48) := by
  have hcode : ∀ n < 32, ∃ a b, ascii "\\u" ++ (numeral 16 (UInt8.ofNat n).toNat).leftpad 4 48 =
      [backslash, 117, 48, 48, a, b] ∧ Json.unicode 48 48 a b = some (UInt8.ofNat n) := by
    intro n hn
    interval_cases n <;> exact ⟨_, _, rfl, rfl⟩
  obtain ⟨a, b, htext, hx⟩ := hcode c.toNat (UInt8.lt_iff_toNat_lt.mp h)
  rw [UInt8.ofNat_toNat] at htext hx
  rw [htext]
  exact .unicode hx .nil

theorem chars_escapeByte (c : UInt8) : Chars [c] (escapeByte c) := by
  unfold escapeByte
  split
  · exact .escape rfl .nil
  · exact .escape rfl .nil
  · exact .escape rfl .nil
  · exact .escape rfl .nil
  · exact .escape rfl .nil
  · rename_i hquote hescape _ _ _
    split
    · rename_i hctrl
      exact chars_code hctrl
    · rename_i hctrl
      exact .plain (UInt8.not_lt.mp hctrl) hquote hescape .nil

theorem chars_escape (s : Text) : Chars s (s.flatMap escapeByte) := by
  induction s with
  | nil => exact .nil
  | cons c s ih => exact (chars_escapeByte c).append ih

/-- A string is written as itself. -/
theorem derives_jsonStr (s : Text) : Derives (.value (.str s)) (jsonStr s) :=
  (chars_escape s).value

/-- A member whose key is a literal. -/
theorem derives_member (k : String) {v : Json}
    (hk : Plain (ascii k)) (hv : Derives (.value v) t) :
    Derives (.members [(ascii k, v)]) (quoted (ascii k) ++ colon :: t) :=
  (chars_plain hk).member hv

theorem derives_jsonPlace (file : CStr) (line : ℤ) : ∃ t, jsonPlace file line = colon :: t ∧
    Derives (.value (Place.toJson ⟨file.bytes, line⟩)) t := by
  have hfile := derives_member "file" (by decide) (derives_jsonStr file.bytes)
  have hline := derives_member "line" (by decide) (.num (isInteger_decimal line))
  refine ⟨_, ?_, .obj (hfile.members_append hline)⟩
  simp only [jsonPlace, quoted, List.append_assoc, List.cons_append, List.nil_append]
  rfl

/-- A place that is printed if its file is known. -/
theorem derives_place_opt (h : Derives (.members ms) t) (k : String)
    (hk : Plain (ascii k)) (file : Option CStr) (line : ℤ) :
    Derives (.members (ms ++ opt (ascii k)
      ((file.map fun file => (⟨file.bytes, line⟩ : Place)).map Place.toJson)))
      (t ++ match file with
        | some file => comma :: quoted (ascii k) ++ jsonPlace file line
        | none => []) := by
  refine h.members_opt ?_ ?_
  · intro hnone
    cases file with
    | none => rfl
    | some file => exact absurd hnone (by simp)
  · intro v hv
    cases file with
    | none => exact absurd hv (by simp)
    | some file =>
      obtain rfl := Option.some.inj hv
      obtain ⟨place, hplace, hderives⟩ := derives_jsonPlace file line
      refine ⟨_, ?_, derives_member k hk hderives⟩
      dsimp only
      rw [hplace]
      rfl

/-- The text of a region. -/
theorem derives_region (fd : Finding) : Derives
    (.value (Region.toJson ⟨fd.regionSize.toNat, fd.freed,
      fd.allocFile.map fun file => ⟨file.bytes, fd.allocLine⟩⟩))
    (leftBrace :: (quoted (ascii "size") ++ colon :: numeral 10 fd.regionSize.toNat ++
      (if fd.freed then ascii ",\"freed\":true" else []) ++
      match fd.allocFile with
      | some file => comma :: quoted (ascii "allocated") ++ jsonPlace file fd.allocLine
      | none => []) ++ [rightBrace]) := by
  refine .obj (derives_place_opt ?_ "allocated" (by decide) fd.allocFile fd.allocLine)
  refine (derives_member "size" (by decide) (derives_numeral _)).members_opt ?_ ?_
  · intro hnone
    split at hnone
    · exact absurd hnone (by simp)
    · rename_i hfreed
      exact if_neg hfreed
  · intro v hv
    split at hv
    · rename_i hfreed
      obtain rfl := Option.some.inj hv
      exact ⟨_, if_pos hfreed, derives_member "freed" (by decide) .yes⟩
    · exact absurd hv (by simp)

theorem printTraceJson_none (h : tr.frames = none) : printTraceJson tr = [] := by
  unfold Trace.frames at h
  unfold printTraceJson
  split at h
  · rfl
  · split at h
    · rename_i hlen
      exact if_pos hlen
    · exact absurd h (by simp)

theorem printTraceJson_some {frames : List Text} (h : tr.frames = some frames) :
    ∃ t, printTraceJson tr = comma :: t ∧
      Derives (.members [(ascii "stack", .arr (frames.map .str))]) t := by
  unfold Trace.frames at h
  unfold printTraceJson
  split at h
  · exact absurd h (by simp)
  · rename_i syms hsyms
    split at h
    · exact absurd h (by simp)
    · rename_i hlen
      obtain rfl := Option.some.inj h
      have harr := derives_array (fun fr => derives_jsonStr (frameText tr fr))
        (syms.drop (captureTrace syms))
      rw [List.map_map]
      refine ⟨_, ?_, derives_member "stack" (by decide) harr⟩
      rw [if_neg hlen]
      simp only [quoted, List.append_assoc, List.cons_append, List.nil_append]
      rfl

theorem derives_stack (h : Derives (.members ms) t) (fd : Finding) (tr : Trace) :
    Derives (.members (ms ++ opt (ascii "stack")
      ((if fd.withStack then tr.frames else none).map fun frames => .arr (frames.map .str))))
      (t ++ if fd.withStack then printTraceJson tr else []) := by
  cases fd.withStack with
  | true =>
    refine h.members_opt (fun hmap => ?_) fun v hv => ?_
    · exact printTraceJson_none (Option.map_eq_none_iff.mp hmap)
    · obtain ⟨frames, hframes, rfl⟩ := Option.map_eq_some_iff.mp hv
      exact printTraceJson_some hframes
  | false => exact h.members_opt (fun _ => rfl) fun v hv => absurd hv (by simp)

theorem derives_access (h : Derives (.members ms) t) (fd : Finding) :
    Derives (.members (ms ++ opt (ascii "access")
      ((if 0 ≤ fd.isWrite then some (decide (fd.isWrite ≠ 0)) else none).map accessJson)))
      (t ++ if 0 ≤ fd.isWrite then
        ascii ",\"access\":\"" ++ ascii (if fd.isWrite ≠ 0 then "write" else "read") ++ ascii "\""
      else []) := by
  refine h.members_if fun _ => ?_
  split
  · rename_i hwrite
    rw [decide_eq_true hwrite]
    exact ⟨_, rfl, derives_member "access" (by decide) (derives_jsonStr (ascii "write"))⟩
  · rename_i hread
    rw [decide_eq_false hread]
    exact ⟨_, rfl, derives_member "access" (by decide) (derives_jsonStr (ascii "read"))⟩

theorem derives_address (h : Derives (.members ms) t) (fd : Finding) :
    Derives (.members (ms ++ opt (ascii "address")
      ((if fd.addr ≠ 0 then some fd.addr.toNat else none).map fun a =>
        .str (48 :: 120 :: numeral 16 a))))
      (t ++ if fd.addr ≠ 0 then ascii ",\"address\":\"0x" ++ numeral 16 fd.addr.toNat ++ ascii "\""
      else []) := by
  refine h.members_if fun _ => ?_
  have hplain : Plain (48 :: 120 :: numeral 16 fd.addr.toNat) := by
    intro c hc
    rcases List.mem_cons.mp hc with rfl | hc
    · decide
    rcases List.mem_cons.mp hc with rfl | hc
    · decide
    obtain ⟨d, hd, rfl⟩ := mem_numeral (by decide) hc
    interval_cases d <;> decide
  refine ⟨_, ?_, derives_member "address" (by decide) (chars_plain hplain).value⟩
  simp only [quoted, List.append_assoc, List.cons_append, List.nil_append]
  rfl

theorem derives_region_opt (h : Derives (.members ms) t) (fd : Finding) :
    Derives (.members (ms ++ opt (ascii "region")
      ((if fd.hasRegion then some (⟨fd.regionSize.toNat, fd.freed,
        fd.allocFile.map fun file => ⟨file.bytes, fd.allocLine⟩⟩ : Region) else none).map
        Region.toJson)))
      (t ++ if fd.hasRegion then
        ascii ",\"region\":\x7b\"size\":" ++ numeral 10 fd.regionSize.toNat ++
          (if fd.freed then ascii ",\"freed\":true" else []) ++
          (match fd.allocFile with
          | some file => ascii ",\"allocated\"" ++ jsonPlace file fd.allocLine
          | none => []) ++
          ascii "\x7d"
      else []) := by
  refine h.members_if fun _ => ⟨_, ?_, derives_member "region" (by decide) (derives_region fd)⟩
  simp only [quoted, List.append_assoc, List.cons_append, List.nil_append]
  rfl

/-- The text of a finding is derived for its parts. -/
theorem derives_jsonFinding (tr : Trace) (fd : Finding) :
    Derives (.value (.obj (fd.seen tr).members)) (jsonFinding tr fd) := by
  have htool := derives_member "tool" (by decide) (derives_jsonStr (ascii "redzone"))
  have herror := htool.members_append
    (derives_member "error" (by decide) (derives_jsonStr fd.kind.bytes))
  have hsize := (derives_access herror fd).members_append
    (derives_member "size" (by decide) (derives_numeral fd.size.toNat))
  have hlocation := derives_place_opt (derives_address hsize fd) "location" (by decide)
    fd.file fd.line
  have h := Derives.obj (derives_stack (derives_region_opt hlocation fd) fd tr)
  refine (congrArg (Derives _) ?_).mp h
  simp only [jsonFinding, quoted, List.append_assoc, List.cons_append, List.nil_append]
  rfl

theorem isText_jsonFinding (tr : Trace) (fd : Finding) :
    IsText (.obj (fd.seen tr).members) (jsonFinding tr fd) :=
  ⟨[], _, [], ws_nil, ws_nil, derives_jsonFinding tr fd, (List.append_nil _).symm⟩

end Writing

/-! ## No control characters -/

section Printable

variable {s t : Text}

/-- No byte is a control character. -/
def Printable (t : Text) : Prop := ∀ c ∈ t, 0x20 ≤ c

instance (t : Text) : Decidable (Printable t) := List.decidableBAll _ t

theorem printable_nil : Printable [] := fun _ hc => absurd hc List.not_mem_nil

theorem printable_append (hs : Printable s) (ht : Printable t) : Printable (s ++ t) := by
  intro c hc
  rcases List.mem_append.mp hc with hc | hc
  · exact hs c hc
  · exact ht c hc

theorem printable_ite {c : Prop} [Decidable c] (h : Printable t) :
    Printable (if c then t else []) := by
  split
  · exact h
  · decide

theorem printable_flatMap {α : Type} {f : α → Text} (h : ∀ x, Printable (f x)) (l : List α) :
    Printable (l.flatMap f) := by
  intro c hc
  obtain ⟨x, -, hx⟩ := List.mem_flatMap.mp hc
  exact h x c hx

theorem printable_numeral {b n : ℕ} (hb : 2 ≤ b) (hb' : b ≤ 16) : Printable (numeral b n) :=
  fun _ hc => UInt8.le_trans (by decide) (le_of_mem_numeral hb hb' hc)

theorem printable_decimal (n : ℤ) : Printable (decimal n) := by
  unfold decimal
  split
  · exact printable_append (s := [45]) (by decide) (printable_numeral (by decide) (by decide))
  · exact printable_numeral (by decide) (by decide)

theorem printable_escapeByte (c : UInt8) : Printable (escapeByte c) := by
  unfold escapeByte
  split
  · decide
  · decide
  · decide
  · decide
  · decide
  · split
    · refine printable_append (by decide) fun c hc => ?_
      rcases List.mem_append.mp hc with hc | hc
      · rw [List.eq_of_mem_replicate hc]
        decide
      · exact printable_numeral (by decide) (by decide) c hc
    · rename_i hctrl
      exact List.forall_mem_singleton.mpr (UInt8.not_lt.mp hctrl)

theorem printable_jsonStr (s : Text) : Printable (jsonStr s) :=
  printable_append (printable_append (by decide) (printable_flatMap printable_escapeByte s))
    (by decide)

theorem printable_jsonPlace (file : CStr) (line : ℤ) : Printable (jsonPlace file line) :=
  printable_append (printable_append (printable_append (printable_append (by decide)
    (printable_jsonStr _)) (by decide)) (printable_decimal _)) (by decide)

theorem printable_commaList {α : Type} {print : α → Text} (h : ∀ x, Printable (print x))
    (l : List α) : Printable (commaList print l) := by
  cases l with
  | nil => exact printable_nil
  | cons x l =>
    refine printable_append (h x) (printable_flatMap (fun x => ?_) l)
    exact printable_append (s := [comma]) (by decide) (h x)

theorem printable_printTraceJson (tr : Trace) : Printable (printTraceJson tr) := by
  unfold printTraceJson
  split
  · decide
  · split
    · decide
    · exact printable_append (printable_append (by decide)
        (printable_commaList (fun _ => printable_jsonStr _) _)) (by decide)

theorem printable_place {k : String} (hk : Printable (ascii k)) (file : Option CStr) (line : ℤ) :
    Printable (match file with
      | some file => ascii k ++ jsonPlace file line
      | none => []) := by
  cases file with
  | none => exact printable_nil
  | some file => exact printable_append hk (printable_jsonPlace file line)

theorem printable_jsonFinding (tr : Trace) (fd : Finding) : Printable (jsonFinding tr fd) := by
  have hsize : ∀ n, Printable (numeral 10 n) := fun n =>
    printable_numeral (by decide) (by decide)
  have hnames : Printable (ascii (if fd.isWrite ≠ 0 then "write" else "read")) := by
    split <;> decide
  have haccess := printable_ite (c := 0 ≤ fd.isWrite) (printable_append
    (printable_append (s := ascii ",\"access\":\"") (by decide) hnames)
    (t := ascii "\"") (by decide))
  have haddress := printable_ite (c := fd.addr ≠ 0) (printable_append (printable_append
    (s := ascii ",\"address\":\"0x") (by decide)
    (printable_numeral (b := 16) (n := fd.addr.toNat) (by decide) (by decide)))
    (t := ascii "\"") (by decide))
  have hregion := printable_ite (c := fd.hasRegion = true) (printable_append (printable_append
    (printable_append (printable_append (s := ascii ",\"region\":\x7b\"size\":") (by decide)
      (hsize fd.regionSize.toNat)) (printable_ite (c := fd.freed = true)
      (t := ascii ",\"freed\":true") (by decide)))
    (printable_place (k := ",\"allocated\"") (by decide) fd.allocFile fd.allocLine))
    (t := ascii "\x7d") (by decide))
  unfold jsonFinding
  refine printable_append (printable_append (printable_append (printable_append
    (printable_append (printable_append (printable_append (printable_append (printable_append
    (by decide) (printable_jsonStr _)) haccess) (by decide)) (hsize _)) haddress)
    (printable_place (by decide) _ _)) hregion)
    (printable_ite (printable_printTraceJson tr))) (by decide)

end Printable

/-! ## SARIF -/

/-- The location of a SARIF result. -/
def locationJson (p : Place) : Json :=
  .arr [.obj [(ascii "physicalLocation", .obj [
    (ascii "artifactLocation", .obj [(ascii "uri", .str p.file)]),
    (ascii "region", .obj [(ascii "startLine", .num p.line)])])]]

/-- The members of a SARIF result. -/
def Finding.sarifMembers (fd : Finding) : List (Text × Json) :=
  [(ascii "ruleId", .str fd.kind.bytes), (ascii "level", .str (ascii "error")),
    (ascii "message", .obj [(ascii "text", .str (sarifMessage fd))])] ++
    opt (ascii "locations") (fd.result.location.map locationJson)

/-- The document with some results. -/
def sarifJson (results : List Json) : Json :=
  .obj [(ascii "version", .str (ascii "2.1.0")),
    (ascii "$schema", .str (ascii "https://raw.githubusercontent.com/oasis-tcs/sarif-spec/master/"
      ++ ascii "Schemata/sarif-schema-2.1.0.json")),
    (ascii "runs", .arr [.obj [
      (ascii "tool", .obj [(ascii "driver", .obj [(ascii "name", .str (ascii "redzone")),
        (ascii "informationUri", .str (ascii "https://github.com/nktkt/redzone")),
        (ascii "rules", .arr [])])]),
      (ascii "results", .arr results)]])]

section Sarif

variable {fd : Finding} {pre t : Text} {n : ℕ}

theorem derives_locations {ms : List (Text × Json)} (h : Derives (.members ms) t) (fd : Finding) :
    Derives (.members (ms ++ opt (ascii "locations") (fd.result.location.map locationJson)))
      (t ++ match fd.file with
        | some file =>
          ascii ",\"locations\":[\x7b\"physicalLocation\":\x7b\"artifactLocation\":\x7b\"uri\":" ++
            jsonStr file.bytes ++ ascii "\x7d,\"region\":\x7b\"startLine\":" ++ decimal fd.line ++
            ascii "\x7d\x7d\x7d]"
        | none => []) := by
  unfold Finding.result
  cases fd.file with
  | none => exact h.members_opt (fun _ => rfl) fun v hv => absurd hv (by simp)
  | some file =>
    refine h.members_opt (fun hnone => absurd hnone (by simp)) fun v hv => ?_
    obtain rfl := Option.some.inj hv
    have huri := derives_member "uri" (by decide) (derives_jsonStr file.bytes)
    have hartifact := derives_member "artifactLocation" (by decide) (.obj huri)
    have hstart := derives_member "startLine" (by decide) (.num (isInteger_decimal fd.line))
    have hregion := derives_member "region" (by decide) (.obj hstart)
    have hphysical := derives_member "physicalLocation" (by decide)
      (.obj (hartifact.members_append hregion))
    refine ⟨_, ?_, derives_member "locations" (by decide)
      (.arr (.element ws_nil ws_nil (.obj hphysical)))⟩
    simp only [quoted, List.append_assoc, List.cons_append, List.nil_append]
    rfl

theorem derives_sarifResult (fd : Finding) :
    Derives (.value (.obj fd.sarifMembers)) (sarifResult fd) := by
  have hrule := derives_member "ruleId" (by decide) (derives_jsonStr fd.kind.bytes)
  have hlevel := derives_member "level" (by decide) (derives_jsonStr (ascii "error"))
  have htext := derives_member "text" (by decide) (derives_jsonStr (sarifMessage fd))
  have hmessage := derives_member "message" (by decide) (.obj htext)
  have hmembers := (hrule.members_append hlevel).members_append hmessage
  refine (congrArg (Derives _) ?_).mp (Derives.obj (derives_locations hmembers fd))
  simp only [sarifResult, quoted, List.append_assoc, List.cons_append, List.nil_append]
  rfl

/-- What is printed before the results. -/
theorem sarif_head :
    ascii "\x7b\"version\":\"2.1.0\",\"$schema\":" ++
      ascii "\"https://raw.githubusercontent.com/oasis-tcs/sarif-spec/master/" ++
      ascii "Schemata/sarif-schema-2.1.0.json\",\"runs\":[\x7b\"tool\":\x7b\"driver\":\x7b" ++
      ascii "\"name\":\"redzone\",\"informationUri\":" ++
      ascii "\"https://github.com/nktkt/redzone\",\"rules\":[]\x7d\x7d,\"results\":[" =
    leftBrace :: (quoted (ascii "version") ++ colon :: quoted (ascii "2.1.0") ++
      comma :: (quoted (ascii "$schema") ++ colon ::
        quoted (ascii "https://raw.githubusercontent.com/oasis-tcs/sarif-spec/master/" ++
          ascii "Schemata/sarif-schema-2.1.0.json")) ++
      comma :: (quoted (ascii "runs") ++ colon :: leftBracket :: leftBrace ::
        (quoted (ascii "tool") ++ colon :: leftBrace ::
          (quoted (ascii "driver") ++ colon :: leftBrace ::
            (quoted (ascii "name") ++ colon :: quoted (ascii "redzone") ++
              comma :: (quoted (ascii "informationUri") ++ colon ::
                quoted (ascii "https://github.com/nktkt/redzone")) ++
              comma :: (quoted (ascii "rules") ++ [colon, leftBracket, rightBracket])) ++
          [rightBrace]) ++ [rightBrace]) ++
        comma :: (quoted (ascii "results") ++ [colon, leftBracket]))) := by
  decide +kernel

/-- What is printed after them. -/
theorem sarif_tail : ascii "]\x7d]\x7d\n" =
    [rightBracket, rightBrace, rightBracket, rightBrace, 10] := rfl

/-- The text of a document is derived for its results. -/
theorem derives_sarifDoc (fds : List Finding) :
    IsText (sarifJson (fds.map fun fd => .obj fd.sarifMembers)) (sarifDoc fds) := by
  have hversion := derives_member "version" (by decide)
    (chars_plain (s := ascii "2.1.0") (by decide)).value
  have hschema := derives_member "$schema" (by decide) (chars_plain
    (s := ascii "https://raw.githubusercontent.com/oasis-tcs/sarif-spec/master/" ++
      ascii "Schemata/sarif-schema-2.1.0.json") (by decide)).value
  have hname := derives_member "name" (by decide)
    (chars_plain (s := ascii "redzone") (by decide)).value
  have huri := derives_member "informationUri" (by decide)
    (chars_plain (s := ascii "https://github.com/nktkt/redzone") (by decide)).value
  have hrules := derives_member "rules" (by decide) (.emptyArr ws_nil)
  have hdriver := derives_member "driver" (by decide)
    (.obj ((hname.members_append huri).members_append hrules))
  have htool := derives_member "tool" (by decide) (.obj hdriver)
  have hresults := derives_member "results" (by decide) (derives_array derives_sarifResult fds)
  have hruns := derives_member "runs" (by decide)
    (.arr (.element ws_nil ws_nil (.obj (htool.members_append hresults))))
  refine ⟨[], _, [10], ws_nil, List.forall_mem_singleton.mpr rfl,
    .obj ((hversion.members_append hschema).members_append hruns), ?_⟩
  rw [sarifDoc, sarif_head, sarif_tail]
  simp only [quoted, List.append_assoc, List.cons_append, List.nil_append]

/-! ## Reading SARIF -/

/-- A number near the start of a message is read, however the message is cut off later. -/
theorem readSize (hn : n < 2 ^ 64) (k : ℕ) (hpre : pre.length = k) (hk : k ≤ 14) :
    numeralValue 10 ((((pre ++ numeral 10 n ++ 32 :: t).take 255).drop k).takeWhile isDigit) =
      n := by
  have hlen := length_numeral_le hn
  obtain ⟨m, hm⟩ := Nat.exists_eq_add_one.mpr
    (show 0 < 255 - (pre ++ numeral 10 n).length by rw [List.length_append]; omega)
  rw [List.take_append, List.take_of_length_le (by rw [List.length_append]; omega),
    List.append_assoc, List.drop_left' hpre, hm, List.take_succ_cons,
    (takeWhile_digits (fun _ => isDigit_of_mem_numeral) (ends_cons rfl)).1,
    numeralValue_numeral (by decide) (by decide)]

theorem prefix_message (hpre : pre.length ≤ 14) : pre <+: (pre ++ t).take 255 := by
  rw [List.take_append, List.take_of_length_le (by omega)]
  exact List.prefix_append _ _

theorem readMessage_write (hn : n < 2 ^ 64) :
    readMessage ((ascii "WRITE of size " ++ numeral 10 n ++ 32 :: t).take 255) =
      (some true, n) := by
  unfold readMessage
  rw [if_pos (by rw [List.append_assoc]; exact prefix_message (by decide)),
    readSize hn 14 rfl (by decide)]

theorem readMessage_read (hn : n < 2 ^ 64) :
    readMessage ((ascii "READ of size " ++ numeral 10 n ++ 32 :: t).take 255) =
      (some false, n) := by
  unfold readMessage
  rw [if_neg ?_, if_pos (by rw [List.append_assoc]; exact prefix_message (by decide)),
    readSize hn 13 rfl (by decide)]
  exact fun h => absurd (List.cons_prefix_cons.mp h).1 (by decide)

theorem readMessage_bare (hn : n < 2 ^ 64) :
    readMessage ((numeral 10 n ++ 32 :: t).take 255) = (none, n) := by
  obtain ⟨d, ds, hds⟩ := List.exists_cons_of_ne_nil (numeral_ne_nil (b := 10) (n := n))
  have hd : isDigit d = true := isDigit_of_mem_numeral (hds ▸ List.mem_cons_self)
  have hword : ∀ (c : UInt8) (s : Text), isDigit c = false →
      ¬ c :: s <+: (numeral 10 n ++ 32 :: t).take 255 := by
    intro c s hc h
    rw [hds, List.cons_append, List.take_succ_cons] at h
    rw [← (List.cons_prefix_cons.mp h).1, hc] at hd
    exact absurd hd (by decide)
  have hwrite : ¬ ascii "WRITE of size " <+: (numeral 10 n ++ 32 :: t).take 255 :=
    hword 87 _ rfl
  have hread : ¬ ascii "READ of size " <+: (numeral 10 n ++ 32 :: t).take 255 := hword 82 _ rfl
  have hsize : numeralValue 10 (((([] ++ numeral 10 n ++ 32 :: t).take 255).drop 0).takeWhile
      isDigit) = n := readSize hn 0 rfl (by decide)
  unfold readMessage
  rw [if_neg hwrite, if_neg hread]
  exact congrArg (Prod.mk none) hsize

/-- Access and size are read from the message. -/
theorem readMessage_sarifMessage (fd : Finding) :
    readMessage (sarifMessage fd) = (fd.result.access, fd.size.toNat) := by
  have hsize : fd.size.toNat < 2 ^ 64 := fd.size.toNat_lt
  unfold sarifMessage Finding.result
  dsimp only
  split
  · split
    · rename_i hwrite
      rw [decide_eq_true hwrite, ← readMessage_write hsize (t := 40 :: fd.kind.bytes ++ ascii ")")]
      simp only [List.append_assoc, List.cons_append]
      rfl
    · rename_i hread
      rw [decide_eq_false hread, ← readMessage_read hsize (t := 40 :: fd.kind.bytes ++ ascii ")")]
      simp only [List.append_assoc, List.cons_append]
      rfl
  · rw [← readMessage_bare hsize (t := ascii "byte(s) (" ++ fd.kind.bytes ++ ascii ")")]
    simp only [List.append_assoc]
    rfl

theorem readLocation_locationJson (p : Place) :
    (onlyElement (locationJson p)).bind readLocation = some p := rfl

/-- Reading a result gives back what a SARIF report has of the finding. -/
theorem SarifResult.ofJson_sarifMembers (fd : Finding) :
    SarifResult.ofJson (.obj fd.sarifMembers) = some fd.result := by
  have hrule : member "ruleId" (.obj fd.sarifMembers) = some (.str fd.kind.bytes) := by
    simp +decide only [Finding.sarifMembers, member_obj, List.lookup_append, lookup_cons']
    rfl
  have hmessage : member "message" (.obj fd.sarifMembers) =
      some (.obj [(ascii "text", .str (sarifMessage fd))]) := by
    simp +decide only [Finding.sarifMembers, member_obj, List.lookup_append, lookup_cons']
    rfl
  have hlocations : member "locations" (.obj fd.sarifMembers) =
      fd.result.location.map locationJson := by
    simp +decide only [Finding.sarifMembers, member_obj, List.lookup_append, lookup_cons',
      lookup_opt]
    simp
  have htext : (member "text" (.obj [(ascii "text", .str (sarifMessage fd))])).bind asStr =
      some (sarifMessage fd) := rfl
  unfold SarifResult.ofJson
  rw [hrule, hmessage, hlocations, optional_map readLocation_locationJson, Option.bind_some,
    Option.bind_some, htext]
  show some (SarifResult.mk fd.kind.bytes (readMessage (sarifMessage fd)).1
    (readMessage (sarifMessage fd)).2 fd.result.location) = some fd.result
  rw [readMessage_sarifMessage]
  rfl

/-- Reading a document gives back what it has of all findings. -/
theorem sarifResults_sarifJson (fds : List Finding) :
    sarifResults (sarifJson (fds.map fun fd => .obj fd.sarifMembers)) =
      some (fds.map Finding.result) :=
  asList_map SarifResult.ofJson_sarifMembers fds

end Sarif

/-! ## Both formats parse back -/

end Redzone.Report
