/-
  Report/Ending.lean --- what a process prints on its way out, and how it ends.

  A process asks the runtime for one thing after the other.  Either a call finds an error,
  reports it and aborts, or the process comes to its end and `report_leaks` looks over the
  table.  `Surroundings` has what the reports depend on besides: the environment
  variables, the strings at file names, and the call stack.

  The object store of `Shadow/ObjectStore.lean` says what should be found.  The proof puts
  together that the runtime refines it and that each report reads back as it was written,
  so what a reader finds on `stderr` is what the store says, and the status agrees.
-/
import Redzone.Report.Leaks
import Redzone.Report.Suppressions
import Redzone.Shadow.Refinement

set_option autoImplicit false

namespace Redzone.Report

open Redzone.Foundation
open Redzone.Foundation.Json
open Redzone.Shadow (Request World Store Represents)

/-! ## Surroundings -/

/-- What reports depend on besides what is found. -/
structure Surroundings where
  /-- `REDZONE_FORMAT` -/
  format : Option CStr
  /-- `REDZONE_COLOR` -/
  color : Option CStr
  /-- `NO_COLOR` is set. -/
  noColor : Bool
  /-- `isatty(STDERR_FILENO)` -/
  isatty : Bool
  /-- `REDZONE_SYMBOLIZE` -/
  symbolize : Option CStr
  /-- What is in the file that `REDZONE_SUPPRESSIONS` names, if it can be opened. -/
  suppressions : Option Text
  /-- Whether `realloc` and `strdup` succeed, for each line of that file. -/
  suppOk : ℕ → Bool × Bool
  /-- The array `done` of the leak report, or the one of its findings, can be allocated. -/
  scratchOk : Bool
  /-- `g_leak_report` -/
  leakReport : Bool
  /-- The string at a pointer. -/
  str : UInt64 → CStr
  /-- Where the name of a file is in memory. -/
  pointer : String → UInt64
  named : ∀ s, pointer s ≠ 0
  /-- What `%p` prints. -/
  showPtr : UInt64 → Text
  /-- The array of `backtrace_symbols` at a report. -/
  syms : Option (List Frame)

namespace Surroundings

variable (p : Surroundings)

/-- `rz_format` -/
def rzFormat : Format :=
  match p.format with
  | none => .text
  | some f =>
    if f.bytes = ascii "json" then .json
    else if f.bytes = ascii "sarif" then .sarif
    else .text

/-- `rz_color_on` -/
def rzColorOn : Bool :=
  if p.color.any fun e => e.bytes = ascii "always" then true
  else if p.color.any fun e => e.bytes = ascii "never" then false
  else if p.noColor then false
  else p.isatty

/-- `rz_symbolize_on` -/
def rzSymbolizeOn : Bool := p.symbolize.any fun e => e.bytes ≠ [] ∧ e.bytes ≠ ascii "0"

/-- What the report functions read. -/
def env : Env where
  str := p.str
  rules := (loadSuppressions p.suppOk p.suppressions ⟨false, []⟩).rules
  colorOn := p.rzColorOn
  trace := ⟨p.rzSymbolizeOn, p.syms⟩

/-- A file name that may be `NULL`. -/
def file (f : Option String) : Option CStr := p.env.file (f.elim 0 p.pointer)

end Surroundings

/-! ## Reports of errors -/

/-- How a process ends. -/
inductive Status where
  /-- `abort` -/
  | aborted
  | exited (code : ℕ)
  deriving DecidableEq, Repr

/-- What is on `stderr` in the end, and how the process ends. -/
structure Ending where
  printed : Text
  status : Status
  deriving DecidableEq

/-- A line of the call stack. -/
def traceLine (env : Env) (txt : Text) (f : ℕ) : Text :=
  ascii "    " ++ env.col "\x1b[2m" ++ ascii "#" ++ numeral 10 f ++ ascii " " ++ txt ++
    env.col "\x1b[0m" ++ ascii "\n"

/-- `print_trace_text` -/
def printTraceText (env : Env) : Text :=
  match env.trace.syms with
  | none => []
  | some syms =>
    let start := captureTrace syms
    (if start < syms.length then
      ascii "    " ++ env.col "\x1b[2m" ++ ascii "#stack (most recent call first):" ++
        env.col "\x1b[0m" ++ ascii "\n"
    else []) ++
      (syms.drop start).zipIdx.flatMap fun e => traceLine env (frameText env.trace e.1) e.2

/-- The name of an error. -/
def kindStr (kind : String) : CStr := CStr.ofBuffer (ascii kind)

/-- The first line of a report, up to what follows the name of the error. -/
def errorHeader (env : Env) (kind : CStr) : Text :=
  env.col "\x1b[1;31m" ++ ascii "==redzone ERROR: " ++ kind.bytes ++ env.col "\x1b[0m"

/-- `emit_finding_and_abort` -/
def emitFindingAndAbort (p : Surroundings) (fd : Finding) : Ending :=
  ⟨if p.rzFormat = .json then jsonFinding p.env.trace fd ++ [10] else sarifDoc [fd], .aborted⟩

/-- The finding of `report_free_error`. -/
def freeFinding (kind : String) (ptr : ℕ) : Finding where
  kind := kindStr kind
  isWrite := -1
  size := 0
  addr := UInt64.ofNat ptr
  file := none
  line := 0
  hasRegion := false
  regionSize := 0
  freed := false
  allocFile := none
  allocLine := 0
  withStack := true

/-- `report_free_error` -/
def reportFreeError (p : Surroundings) (kind : String) (ptr : ℕ) : Ending :=
  if p.rzFormat ≠ .text then emitFindingAndAbort p (freeFinding kind ptr)
  else
    ⟨errorHeader p.env (kindStr kind) ++ ascii " of " ++ p.showPtr (UInt64.ofNat ptr) ++
      ascii "\n" ++ printTraceText p.env, .aborted⟩

/-- The finding of `report_simple`, and of `report` for a block. -/
def accessFinding (p : Surroundings) (r : Shadow.Report) : Finding where
  kind := kindStr r.kind
  isWrite := if r.isWrite then 1 else 0
  size := UInt64.ofNat r.size
  addr := UInt64.ofNat r.addr
  file := p.file r.file
  line := r.line
  hasRegion := r.block.isSome
  regionSize := r.block.elim 0 fun b => UInt64.ofNat b.userSize
  freed := r.block.elim false Shadow.Block.freed
  allocFile := r.block.bind fun b => p.file b.allocFile
  allocLine := r.block.elim 0 Shadow.Block.allocLine
  withStack := true

/-- The lines that `report` and `report_simple` begin with. -/
def accessLines (p : Surroundings) (r : Shadow.Report) : Text :=
  errorHeader p.env (kindStr r.kind) ++ ascii "\n" ++
    ascii "  " ++ ascii (if r.isWrite then "WRITE" else "READ") ++ ascii " of size " ++
    numeral 10 (UInt64.ofNat r.size).toNat ++ ascii " at " ++ p.showPtr (UInt64.ofNat r.addr) ++
    ascii "\n" ++
    (match p.file r.file with
    | some file =>
      ascii "    at " ++ p.env.col "\x1b[36m" ++ file.bytes ++ ascii ":" ++ decimal r.line ++
        p.env.col "\x1b[0m" ++ ascii "\n"
    | none => []) ++
    printTraceText p.env

/-- The lines of `report` about the block. -/
def regionLines (p : Surroundings) (a : UInt64) (b : Block) : Text :=
  let region := numeral 10 b.userSize.toNat ++ ascii "-byte region [" ++ p.showPtr b.userAddr ++
    ascii ", " ++ p.showPtr (b.userAddr + b.userSize) ++ ascii ")" ++
    (if b.freed then ascii " (freed)" else []) ++ ascii "\n"
  (if a < b.userAddr then
    ascii "  " ++ numeral 10 (b.userAddr - a).toNat ++ ascii " byte(s) before a " ++ region
  else if b.userAddr + b.userSize ≤ a then
    ascii "  " ++ numeral 10 (a - (b.userAddr + b.userSize)).toNat ++ ascii " byte(s) after a " ++
      region
  else ascii "  inside a " ++ region) ++
    match p.env.file b.allocFile with
    | some file =>
      ascii "    " ++ p.env.col "\x1b[2m" ++ ascii "allocated at " ++ file.bytes ++ ascii ":" ++
        decimal b.allocLine ++ p.env.col "\x1b[0m" ++ ascii "\n"
    | none => []

/-- `report` -/
def report (p : Surroundings) (r : Shadow.Report) (b : Block) : Ending :=
  if p.rzFormat ≠ .text then emitFindingAndAbort p (accessFinding p r)
  else ⟨accessLines p r ++ regionLines p (UInt64.ofNat r.addr) b, .aborted⟩

/-- `report_simple` -/
def reportSimple (p : Surroundings) (r : Shadow.Report) : Ending :=
  if p.rzFormat ≠ .text then emitFindingAndAbort p (accessFinding p r)
  else ⟨accessLines p r, .aborted⟩

/-- What a call does that ends the process. -/
def abortEnding (p : Surroundings) : Shadow.Abort → Ending
  | .outOfMemory => ⟨ascii "redzone: out of memory tracking allocations\n", .aborted⟩
  | .freeError kind ptr => reportFreeError p kind ptr
  | .access r =>
    match r.block with
    | some b => report p r (ofShadow p.pointer b)
    | none => reportSimple p r

/-! ## Processes -/

/-- The end of a process that has not been aborted: `report_leaks` runs, and may replace the
status. -/
def exitEnding (p : Surroundings) (code : ℕ) (blocks : List Shadow.Block) : Ending :=
  let o := reportLeaks p.env p.leakReport p.scratchOk p.rzFormat (blocks.map (ofShadow p.pointer))
  ⟨o.printed, .exited (o.exit.getD code)⟩

/-- A process that makes the requests and then exits with the code. -/
def runProcess (p : Surroundings) (reqs : List Request) (code : ℕ) : Ending :=
  match outcome World.serve .initial reqs with
  | .error x => abortEnding p x
  | .ok w => exitEnding p code w.rt.blocks

/-! ## What should be found -/

/-- A block is a leak: it has not been freed, and no pattern is in the name of its file. -/
def Surroundings.Leaked (p : Surroundings) (b : Shadow.Block) : Prop :=
  b.freed = false ∧ ∀ file ∈ p.file b.allocFile, ∀ pat ∈ p.env.rules, ¬ pat.bytes <:+: file.bytes

instance (p : Surroundings) : DecidablePred p.Leaked := fun b =>
  inferInstanceAs (Decidable (b.freed = false ∧ ∀ file ∈ p.file b.allocFile,
    ∀ pat ∈ p.env.rules, ¬ pat.bytes <:+: file.bytes))

/-- The findings of a process, from how the store ends up. -/
def Surroundings.found (p : Surroundings) : Except Shadow.Abort Store → List Finding
  | .error .outOfMemory => []
  | .error (.freeError kind ptr) => [freeFinding kind ptr]
  | .error (.access r) => [accessFinding p r]
  | .ok t =>
    if p.leakReport then
      (t.blocks.filter p.Leaked).map fun b => leakFinding p.env (ofShadow p.pointer b)
    else []

/-- How a process should end. -/
def Surroundings.statusOf (p : Surroundings) (code : ℕ) (o : Except Shadow.Abort Store) : Status :=
  match o with
  | .error _ => .aborted
  | .ok _ => .exited (if p.found o = [] then code else 1)

/-- The findings on `stderr`, one in a line. -/
def jsonLog (t : Text) : Option (List Seen) :=
  if (lines t).getLast? = some [] then
    (lines t).dropLast.mapM fun l => (decode l).bind Seen.ofJson
  else none

/-- The findings on `stderr`, in one document if there are any. -/
def sarifLog (t : Text) : Option (List SarifResult) :=
  if t = [] then some [] else (decode t).bind sarifResults

/-- An ending tells how the store ends up. -/
structure Ending.Tells (E : Ending) (p : Surroundings) (code : ℕ)
    (o : Except Shadow.Abort Store) : Prop where
  /-- An error aborts the process, and a leak makes it fail. -/
  status : E.status = p.statusOf code o
  /-- Where the runtime does not run out of memory, nothing is printed but findings. -/
  silent : o ≠ .error .outOfMemory → p.found o = [] → E.printed = []
  json : o ≠ .error .outOfMemory → p.rzFormat = .json →
    jsonLog E.printed = some ((p.found o).map fun fd => fd.seen p.env.trace)
  sarif : o ≠ .error .outOfMemory → p.rzFormat = .sarif → p.scratchOk = true →
    sarifLog E.printed = some ((p.found o).map Finding.result)
  /-- A text report starts with the name of the first finding. -/
  text : p.rzFormat = .text → ∀ fd ∈ (p.found o).head?, errorHeader p.env fd.kind <+: E.printed

/-! ## Reports that are read back -/

section Reading

variable {p : Surroundings} {fds : List Finding} {fd : Finding} {tr : Trace}

theorem seen_jsonFinding (tr : Trace) (fd : Finding) :
    (decode (jsonFinding tr fd)).bind Seen.ofJson = some (fd.seen tr) := by
  rw [(isText_jsonFinding tr fd).decode, Option.bind_some, Seen.ofJson_members]

theorem mapM_lines (tr : Trace) (fds : List Finding) :
    (fds.map (jsonFinding tr)).mapM (fun l => (decode l).bind Seen.ofJson) =
      some (fds.map fun fd => fd.seen tr) := by
  induction fds with
  | nil => rfl
  | cons fd fds ih =>
    rw [List.map_cons, List.mapM_cons, seen_jsonFinding, ih]
    rfl

/-- A line for each finding reads back as the findings. -/
theorem jsonLog_findings (tr : Trace) (fds : List Finding) :
    jsonLog (fds.flatMap fun fd => jsonFinding tr fd ++ [10]) =
      some (fds.map fun fd => fd.seen tr) := by
  have hlines : lines (fds.flatMap fun fd => jsonFinding tr fd ++ [10]) =
      fds.map (jsonFinding tr) ++ [[]] := by
    rw [← List.flatMap_map (jsonFinding tr) (· ++ [10])]
    refine lines_flatMap _ fun l hl hmem => ?_
    obtain ⟨fd, -, rfl⟩ := List.mem_map.mp hl
    exact absurd (printable_jsonFinding tr fd 10 hmem) (by decide)
  unfold jsonLog
  rw [hlines, List.getLast?_concat, if_pos rfl, List.dropLast_concat, mapM_lines]

theorem sarifDoc_ne_nil (fds : List Finding) : sarifDoc fds ≠ [] := by
  rw [sarifDoc, sarif_tail]
  intro hnil
  exact List.cons_ne_nil _ _ (List.append_eq_nil_iff.mp hnil).2

/-- A document reads back as its results. -/
theorem sarifLog_findings (fds : List Finding) :
    sarifLog (sarifDoc fds) = some (fds.map Finding.result) := by
  unfold sarifLog
  rw [if_neg (sarifDoc_ne_nil fds), (derives_sarifDoc fds).decode, Option.bind_some,
    sarifResults_sarifJson]

/-- A report of one finding, in a machine-readable format or as text. -/
structure ReportsOne (p : Surroundings) (fd : Finding) (E : Ending) : Prop where
  status : E.status = .aborted
  emitted : p.rzFormat ≠ .text → E = emitFindingAndAbort p fd
  header : p.rzFormat = .text → errorHeader p.env fd.kind <+: E.printed

theorem prefix_accessLines (p : Surroundings) (r : Shadow.Report) :
    errorHeader p.env (kindStr r.kind) <+: accessLines p r := by
  unfold accessLines
  simp only [List.append_assoc]
  exact List.prefix_append _ _

theorem reportsOne_free (p : Surroundings) (kind : String) (ptr : ℕ) :
    ReportsOne p (freeFinding kind ptr) (reportFreeError p kind ptr) := by
  unfold reportFreeError
  split
  · rename_i hfmt
    exact ⟨rfl, fun _ => rfl, fun h => absurd h hfmt⟩
  · rename_i hfmt
    refine ⟨rfl, fun h => absurd h hfmt, fun _ => ?_⟩
    simp only [List.append_assoc]
    exact List.prefix_append _ _

theorem reportsOne_access (p : Surroundings) (r : Shadow.Report) :
    ReportsOne p (accessFinding p r) (abortEnding p (.access r)) := by
  have hcases : abortEnding p (.access r) =
      if p.rzFormat ≠ .text then emitFindingAndAbort p (accessFinding p r)
      else ⟨accessLines p r ++ (r.block.elim [] fun b =>
        regionLines p (UInt64.ofNat r.addr) (ofShadow p.pointer b)), .aborted⟩ := by
    simp only [abortEnding]
    cases r.block with
    | none =>
      simp only [Option.elim_none, List.append_nil]
      rfl
    | some b => rfl
  rw [hcases]
  split
  · rename_i hfmt
    exact ⟨rfl, fun _ => rfl, fun h => absurd h hfmt⟩
  · rename_i hfmt
    exact ⟨rfl, fun h => absurd h hfmt,
      fun _ => (prefix_accessLines p r).trans (List.prefix_append _ _)⟩

/-- A report of one finding tells of it. -/
theorem ReportsOne.tells {E : Ending} {code : ℕ} {x : Shadow.Abort} (h : ReportsOne p fd E)
    (hfound : p.found (.error x) = [fd]) : E.Tells p code (.error x) where
  status := h.status
  silent _ hnil := by
    rw [hfound] at hnil
    exact absurd hnil (List.cons_ne_nil _ _)
  json _ hfmt := by
    have hne : p.rzFormat ≠ .text := by
      rw [hfmt]
      decide
    have hone := jsonLog_findings p.env.trace [fd]
    rw [List.flatMap_singleton] at hone
    rw [h.emitted hne, hfound, emitFindingAndAbort, if_pos hfmt]
    exact hone
  sarif _ hfmt _ := by
    have hne : p.rzFormat ≠ .text := by
      rw [hfmt]
      decide
    have hjson : p.rzFormat ≠ .json := by
      rw [hfmt]
      decide
    rw [h.emitted hne, hfound, emitFindingAndAbort, if_neg hjson]
    exact sarifLog_findings [fd]
  text hfmt fd' hfd' := by
    rw [hfound] at hfd'
    obtain rfl : fd = fd' := Option.some.inj hfd'
    exact h.header hfmt

end Reading

/-! ## Leaks -/

section Exit

variable {p : Surroundings} {code : ℕ} {bs : List Shadow.Block} {t : Store}

/-- The leaks of the table are the blocks that should be found. -/
theorem leaks_ofShadow (p : Surroundings) (bs : List Shadow.Block) :
    leaks p.env (bs.map (ofShadow p.pointer)) =
      (bs.filter p.Leaked).map (ofShadow p.pointer) := by
  unfold leaks
  rw [List.filter_map]
  refine congrArg (List.map _) (List.filter_congr fun b _ => ?_)
  rw [Bool.eq_iff_iff, Function.comp_apply, isUnsuppressedLeak_iff, decide_eq_true_iff]
  rfl

/-- Without a leak nothing is printed, and the status is that of the program. -/
theorem exitEnding_none (h : p.leakReport = false ∨ bs.filter p.Leaked = []) :
    exitEnding p code bs = ⟨[], .exited code⟩ := by
  unfold exitEnding reportLeaks
  rcases h with h | h
  · rw [h]
    rfl
  · rw [countLeaks_eq, leaks_ofShadow, h]
    cases p.leakReport <;> rfl

/-- With a leak the process fails, and the format decides what is printed. -/
theorem exitEnding_some (p : Surroundings) (code : ℕ) {w : World} (hinv : w.Inv)
    (hreport : p.leakReport = true) (h : w.rt.blocks.filter p.Leaked ≠ []) :
    (exitEnding p code w.rt.blocks).status = .exited 1 ∧
      (p.rzFormat = .json → (exitEnding p code w.rt.blocks).printed =
        jsonLeaks p.env (w.rt.blocks.map (ofShadow p.pointer))) ∧
      (p.rzFormat = .sarif → p.scratchOk = true → (exitEnding p code w.rt.blocks).printed =
        sarifDoc (fillArray p.env (w.rt.blocks.map (ofShadow p.pointer)))) ∧
      (p.rzFormat = .text →
        errorHeader p.env ⟨ascii "memory-leak", by decide⟩ <+:
          (exitEnding p code w.rt.blocks).printed) := by
  obtain ⟨tab, htab⟩ := exists_table hinv p.pointer
  have hleaks : leaks p.env tab.blocks ≠ [] := by
    rw [htab, leaks_ofShadow]
    exact fun hnil => h (List.map_eq_nil_iff.mp hnil)
  have hcount : (UInt64.ofNat (leaks p.env tab.blocks).length).toNat =
      (leaks p.env tab.blocks).length := UInt64.toNat_ofNat_of_lt' tab.length_leaks_lt
  have hne : UInt64.ofNat (leaks p.env tab.blocks).length ≠ 0 := by
    intro hzero
    rw [hzero] at hcount
    exact hleaks (List.eq_nil_of_length_eq_zero hcount.symm)
  have hname : ascii "==redzone ERROR: memory-leak" =
      ascii "==redzone ERROR: " ++ ascii "memory-leak" := by decide
  rw [htab] at hne
  unfold exitEnding reportLeaks
  rw [hreport, countLeaks_eq]
  simp only [Bool.not_true, Bool.false_eq_true, if_false, hne]
  cases p.rzFormat with
  | json =>
    exact ⟨rfl, fun _ => rfl, fun h => absurd h (by decide), fun h => absurd h (by decide)⟩
  | sarif =>
    exact ⟨rfl, fun h => absurd h (by decide), fun _ hscratch => if_pos hscratch,
      fun h => absurd h (by decide)⟩
  | text =>
    refine ⟨rfl, fun h => absurd h (by decide), fun h => absurd h (by decide), fun _ => ?_⟩
    unfold leakHeader errorHeader
    rw [hname]
    simp only [List.append_assoc]
    exact (List.prefix_append_right_inj _).mpr ((List.prefix_append_right_inj _).mpr
      ((List.prefix_append_right_inj _).mpr (List.prefix_append _ _)))

/-- A process that exits tells of its leaks. -/
theorem exitEnding_tells {w : World} (hinv : w.Inv) (hblocks : t.blocks = w.rt.blocks) :
    (exitEnding p code w.rt.blocks).Tells p code (.ok t) := by
  have hfound : p.found (.ok t) = if p.leakReport then
      (w.rt.blocks.filter p.Leaked).map fun b => leakFinding p.env (ofShadow p.pointer b)
      else [] := by
    rw [← hblocks]
    rfl
  rcases Classical.em (p.leakReport = false ∨ w.rt.blocks.filter p.Leaked = []) with hnone | hsome
  · have hnil : p.found (.ok t) = [] := by
      rw [hfound]
      rcases hnone with h | h
      · rw [h]
        rfl
      · rw [h]
        exact ite_self _
    rw [exitEnding_none hnone]
    exact ⟨by simp only [Surroundings.statusOf, hnil, if_true], fun _ _ => rfl,
      fun _ _ => by rw [hnil]; rfl, fun _ _ _ => by rw [hnil]; rfl,
      fun _ fd hfd => by rw [hnil] at hfd; exact absurd hfd (by simp)⟩
  · obtain ⟨hreport, hleaks⟩ := not_or.mp hsome
    have hreport := Bool.not_eq_false _ ▸ hreport
    rw [if_pos hreport] at hfound
    obtain ⟨hstatus, hjson, hsarif, htext⟩ := exitEnding_some p code hinv hreport hleaks
    have hne : p.found (.ok t) ≠ [] := by
      rw [hfound]
      exact fun hnil => hleaks (List.map_eq_nil_iff.mp hnil)
    refine ⟨?_, fun _ hnil => absurd hnil hne, fun _ hfmt => ?_, fun _ hfmt hscratch => ?_,
      fun hfmt fd hfd => ?_⟩
    · rw [hstatus]
      simp only [Surroundings.statusOf, hne, if_false]
    · rw [hjson hfmt, jsonLeaks_eq, leaks_ofShadow, List.flatMap_map, hfound, ← jsonLog_findings,
        List.flatMap_map]
    · rw [hsarif hfmt hscratch, fillArray_eq, leaks_ofShadow, List.map_map, hfound]
      exact sarifLog_findings _
    · obtain ⟨b, -, rfl⟩ := List.mem_map.mp (hfound ▸ List.mem_of_mem_head? hfd)
      exact htext hfmt

end Exit

/-! ## The process -/

/-- What a reader finds on `stderr` at the end of a process is what the object store says should
be found, and the status agrees with it. -/
theorem process_tells (p : Surroundings) (reqs : List Request) (code : ℕ)
    (h : EveryRequest Store.serve Store.Allowed .initial reqs) :
    (runProcess p reqs code).Tells p code (outcome Store.serve .initial reqs) := by
  unfold runProcess
  rcases Shadow.runtime_refines.outcome Shadow.represents_initial h with
    ⟨x, hrun, hspec⟩ | ⟨w, t, hrun, hspec, hrep⟩
  · rw [hrun, hspec]
    cases x with
    | outOfMemory =>
      exact ⟨rfl, fun hne => absurd rfl hne, fun hne => absurd rfl hne, fun hne => absurd rfl hne,
        fun _ fd hfd => absurd hfd (by simp [Surroundings.found])⟩
    | freeError kind ptr => exact (reportsOne_free p kind ptr).tells rfl
    | access r => exact (reportsOne_access p r).tells rfl
  · rw [hrun, hspec]
    exact exitEnding_tells hrep.intact.inv hrep.blocks

/-- A process that reports in JSON, in which all files are `a.c`. -/
def jsonSurroundings : Surroundings where
  format := some ⟨ascii "json", by decide⟩
  color := none
  noColor := false
  isatty := true
  symbolize := none
  suppressions := none
  suppOk := fun _ => (true, true)
  scratchOk := true
  leakReport := true
  str := fun _ => ⟨ascii "a.c", by decide⟩
  pointer := fun _ => 1
  named := fun _ => by decide
  showPtr := fun a => ascii "0x" ++ numeral 16 a.toNat
  syms := none

/-- Two blocks, one of which is not freed. -/
def leakRun : List Request :=
  [.heap (.malloc 10 (some "a.c") 3 ⟨some 0x1000, true⟩),
    .heap (.malloc 6 (some "a.c") 4 ⟨some 0x2000, true⟩), .heap (.free 0x2010)]

theorem process_tells_leakRun : (runProcess jsonSurroundings leakRun 0).status = .exited 1 ∧
    jsonLog (runProcess jsonSurroundings leakRun 0).printed =
      some [⟨ascii "memory-leak", none, 10, some 0x1010, some ⟨ascii "a.c", 3⟩, none, none⟩] := by
  have htells := process_tells jsonSurroundings leakRun 0 (by decide +kernel)
  have hgoes : (outcome Store.serve .initial leakRun).isOk = true := by decide +kernel
  have hmemory : outcome Store.serve .initial leakRun ≠ .error .outOfMemory := by
    intro heq
    rw [heq] at hgoes
    exact Bool.noConfusion hgoes
  exact ⟨htells.status.trans (by decide +kernel),
    (htells.json hmemory (by decide)).trans (by decide +kernel)⟩

end Redzone.Report
