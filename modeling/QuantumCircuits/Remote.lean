import QuantumCircuits.Study
import QuantumCircuits.Wire

/-! # Where a job runs and where its data lie

A job belongs to a program of a project. -/
namespace QuantumCircuits.Remote
structure JobConfig where
  project : Option String := none
  program : Option String := none
  job : Option String := none
  folder : Option String := none
  code : Option String := none
  results : Option String := none
namespace JobConfig
def nameText (s : Option String) : String := s.getD "None"
variable (c : JobConfig)
def structural : String :=
  let fields := [("project_id",c.project),("program_id",c.program),("job_id",c.job),("gcs_prefix",c.folder),
    ("gcs_program",c.code),("gcs_results",c.results)]
  "JobConfig" ++ Text.parenthesized (fields.map fun (k,v) => k ++ "=" ++ v.elim "None" Text.quoted)
def inferProject (default : Option String) (c : JobConfig) : Outcome JobConfig :=
  match c.project, default with
  | some _, _ => .ok c
  | none, some p => .ok { c with project := some p }
  | none, none => .error (.value ("Need a cloud project id. This engine has default_project_id=None and the given JobConfig "
      ++ "has project_id=None. One or the other must be set."))
def isFolderChar (c : Char) : Bool :=
  ('a' ≤ c ∧ c ≤ 'z') || ('0' ≤ c ∧ c ≤ '9') || ['.','_','/','-'].contains c
def isFolder (s : String) : Bool := match Text.afterStart? "gs://".toList s.toList with
  | some (c :: _) => isFolderChar c
  | _ => false
def afterColon (s : String) : String := ((Text.splitAt ':' s).getLast?).getD s
def firstGiven : List (Option String) → Option String
  | [] => none
  | some "" :: r | none :: r => firstGiven r
  | some s :: _ => some s
def inferFolder (default : Option String) (c : JobConfig) : Outcome JobConfig :=
  match c.project with
  | none => .error (.value "Must infer project_id before gcs_prefix.")
  | some project =>
    let s := (firstGiven [c.folder,default]).getD ("gs://gqe-" ++ afterColon project)
    let s := if Text.endsWith "/" s then s else s ++ "/"
    if isFolder s then .ok { c with folder := some s }
    else .error (.value "gcs_prefix must be of the form \"gs://<bucket name and optional object prefix>/\"")
def inferProgram (letters : List Char) (c : JobConfig) : JobConfig :=
  if c.program.isSome then c else { c with program := some ("prog-" ++ String.ofList letters) }
def inferJob : JobConfig := if c.job.isSome then c else { c with job := some "job-0" }
def inferCode : Outcome JobConfig :=
  match c.folder with
  | none => .error (.value "Must infer gcs_prefix before gcs_program.")
  | some folder =>
    let name := nameText c.program
    .ok (if c.code.isSome then c else { c with code := some s!"{folder}programs/{name}/{name}" })
def inferResults : Outcome JobConfig :=
  match c.folder with
  | none => .error (.value "Must infer gcs_prefix before gcs_results.")
  | some folder =>
    .ok (if c.results.isSome then c
      else { c with results := some s!"{folder}programs/{nameText c.program}/jobs/{nameText c.job}" })
end JobConfig

/-! ## Sessions with a service

A session knows what the service will reply, and keeps a record of what was asked of it. -/
inductive Deed where
  | request (key : String) (args : Fields)
  | pause (seconds : Number)
structure Session where
  /-- The replies to requests of each kind, in order; the last one stays. -/
  replies : List (String × List Json) := []
  draws : List Int := []
  deeds : Array Deed := #[]
namespace Session
def next (key : String) : List (String × List Json) → Json × List (String × List Json)
  | [] => (.obj [],[])
  | (k,rs) :: more =>
    if k = key then match rs with
      | [] => (.obj [],(k,rs) :: more)
      | [r] => (r,(k,rs) :: more)
      | r :: rest => (r,(k,rest) :: more)
    else
      let (r,more) := next key more
      (r,(k,rs) :: more)
end Session
variable {M : Type → Type} [Monad M] [MonadStateOf Session M]
def ask (key : String) (args : Fields) : M Json :=
  modifyGet fun s =>
    let (r,replies) := Session.next key s.replies
    (r,{ s with replies := replies, deeds := s.deeds.push (.request key args) })
def pause (seconds : Number) : M Unit := modify fun s => { s with deeds := s.deeds.push (.pause seconds) }
variable [MonadExceptOf Fault M]
def ensured {α : Type} : Outcome α → M α
  | .ok a => pure a
  | .error f => throw f
def choose {α : Type} (xs : List α) : M α := do
  let s ← getThe Session
  match s.draws with
  | [] => throw (Fault.bare .index)
  | d :: rest =>
    set { s with draws := rest }
    let i := if d < 0 then d+xs.length else d
    match if 0 ≤ i then xs[i.toNat]? else none with
    | some x => pure x
    | none => throw (Fault.bare .index)

/-! ## Running programs on a remote engine

A program is sent as a schedule with the sweeps of its parameters, and a job is created for it. -/
open JobConfig
structure Engine where
  api : String := "quantum"
  version : String := "v1alpha1"
  key : Option String := none
  project : Option String := none
  description : String := "https://\x7bapi\x7d.googleapis.com/$discovery/rest?version=\x7bapiVersion\x7d"
  folder : Option String := none
inductive Program where
  | circuit (b : BoundCircuit Number)
  | schedule (s : Schedule Number)
  | other
namespace Program
/-- The schedule of a program; a circuit is first converted to gates that the engine knows. -/
def toSchedule : Program → Outcome (Schedule Number)
  | circuit b => do
    let (c,converted) := (Conversion.toXmon false).run b.circuit
    let _ ← converted
    let (c,cleaned) := Cleaning.dropEmpty b.device.rules c
    let _ ← cleaned
    b.device.rules.checkCircuit c
    Schedule.ofCircuit b.device c
  | schedule s => .ok s
  | other => .error (.type "Unexpected program type.")
end Program
inductive Point where
  | resolver (r : Resolver Number)
  | sweep (s : Sweep Number)
  | other
inductive Points where
  | one (p : Point)
  | many (ps : List Point)
namespace Points
def single (r : Resolver Number) : Outcome (Sweep Number) := do
  if r.isEmpty then .ok .unit
  else
    Sweep.zipOf (← r.entries.mapM fun (k,v) => match v with
      | .num x => .ok (Sweep.points k [x])
      | _ => fails .type)
def toSweeps : Points → Outcome (List (Sweep Number))
  | one (.resolver r) => do .ok [← single r]
  | one (.sweep s) => .ok [s]
  | one .other => .error (.type "Unexpected Sweepable.")
  | many [] => fails .stopped
  | many (.sweep s :: ps) => do
    .ok (s :: (← ps.mapM fun
      | .sweep t => .ok t
      | _ => fails .attribute))
  | many ps => ps.mapM fun
      | .resolver r => single r
      | _ => fails .attribute
def isGiven : Points → Bool
  | one (.resolver r) => !r.isEmpty
  | one (.sweep s) => s.size ≠ 0
  | one .other => true
  | many ps => !ps.isEmpty
end Points
structure Job where
  config : JobConfig
  document : Json
  name : String
  results : List (Trial Number) := []
structure Task where
  program : Program
  config : JobConfig := {}
  points : Points := .one (.resolver .empty)
  repetitions : Int := 1
  priority : Number := .int 500
  route : Json := .str "/xmonsim"
def item (k : String) (j : Json) : Answer := match j with
  | .obj fs => orFail .key (fs.lookup k)
  | _ => fails .type
def shown : Json → String
  | .str s => s
  | j => j.literal
def isEnd (state : Json) : Bool := match state with
  | .str s => ["SUCCESS","FAILURE","CANCELLED"].contains s
  | _ => false
def stateOf (document : Json) : Answer := do item "state" (← item "executionStatus" document)
namespace Job
def ofDocument (config : JobConfig) (document : Json) : Outcome Job := do
  match ← item "name" document with
  | .str name => .ok { config := config, document := document, name := name }
  | _ => fails .attribute
def programName (j : Job) : String :=
  let rec upTo : List Char → List Char
    | [] => []
    | c :: cs => if (Text.afterStart? "/jobs".toList (c :: cs)).isSome then [] else c :: upTo cs
  String.ofList (upTo j.name.toList)
end Job
namespace Engine
def ofEnvironment (env : String → Option String) : Outcome Engine :=
  match env "CIRQ_QUANTUM_ENGINE_API_KEY" with
  | none | some "" => .error ⟨.system,some "Environment variable CIRQ_QUANTUM_ENGINE_API_KEY is not set."⟩
  | some key => .ok { key := some key, project := env "CIRQ_QUANTUM_ENGINE_DEFAULT_PROJECT_ID" }
def address (e : Engine) : String := match e.key with
  | none => e.description
  | some k => s!"{e.description}&key={Text.percentCodedQuery k}"
def trialsOf (reply : Json) : Outcome (List (Trial Number)) := do
  let sweeps ← (← item "sweepResults" (← item "result" reply)).elems.mapM fun sweep => do
    let reps := (← item "repetitions" sweep).toInt
    let sizes ← (← item "measurementKeys" sweep).elems.mapM fun m => do
      Except.ok ((← item "key" m).text,(← item "qubits" m).elems.length)
    (← item "parameterizedResults" sweep).elems.mapM fun r => do
      let data ← Base64.decode (← item "measurementResults" r).text
      let rows ← Packing.unpack data reps.toNat sizes
      let assigned := ((r.field "params").field "assignments").fields.map fun (k,v) => (k,Param.num v.number)
      Except.ok (⟨⟨assigned⟩,rows,reps⟩ : Trial Number)
  .ok sweeps.flatten
section
variable (name : Json)
def letters : M (List Char) :=
  (List.range 6).mapM fun _ => choose "ABCDEFGHIJKLMNOPQRSTUVWXYZ0123456789".toList
def inferProgram (c : JobConfig) : M JobConfig := do
  if c.program.isSome then pure c else return c.inferProgram (← letters)
def implied (e : Engine) (c : JobConfig) : M JobConfig := do
  let c ← ensured (do (← c.inferProject e.project).inferFolder e.folder)
  let c ← inferProgram c
  ensured (do (← c.inferJob.inferCode).inferResults)
def runSweep (e : Engine) (t : Task) : M Job := do
  let c ← e.implied t.config
  let schedule ← ensured t.program.toSchedule
  if t.priority < .int 0 || !(t.priority < .int 1000) then throw (Fault.value "priority must be between 0 and 1000")
  ensured (schedule.device.checkSchedule schedule)
  let sweeps ← ensured (if t.points.isGiven then t.points.toSweeps else .ok [.unit])
  let sweeps ← ensured (sweeps.mapM fun s => s.toDocument t.repetitions)
  let messages ← ensured schedule.toMessages
  let project := nameText c.project
  let code := Json.obj [("@type",.str "type.googleapis.com/cirq.api.google.v1.Program"),
    ("parameter_sweeps",.arr sweeps),("operations",.arr (messages.map fun m => m.toDocument))]
  let program ← ask "programs.create" [("parent",.str ("projects/" ++ project)),
    ("body",.obj [("name",.str s!"projects/{project}/programs/{nameText c.program}"),
      ("gcs_code_location",.obj [("uri",.str (nameText c.code))]),("code",code)])]
  let name ← ensured (item "name" program)
  let job ← ask "programs.jobs.create" [("parent",name),
    ("body",.obj [("name",.str s!"{shown name}/jobs/{nameText c.job}"),
      ("output_config",.obj [("gcs_results_location",.obj [("uri",.str (nameText c.results))])]),
      ("scheduling_config",.obj [("priority",.num t.priority),("target_route",t.route)])])]
  ensured (Job.ofDocument c job)
def getProgram : M Json := ask "programs.get" [("name",name)]
def getJob : M Json := ask "programs.jobs.get" [("name",name)]
def getResults : M (List (Trial Number)) := do
  ensured (trialsOf (← ask "programs.jobs.getResult" [("parent",name)]))
def cancelJob : M Unit := do
  let _ ← ask "programs.jobs.cancel" [("name",name),("body",.obj [])]
def setLabels (kind : String) (name labels fingerprint : Json) : M Unit := do
  let body := Json.obj [("name",name),("labels",labels),("labelFingerprint",fingerprint)]
  let _ ← ask (kind ++ ".patch") [("name",name),("body",body),("updateMask",.str "labels")]
def fingerprintOf (j : Json) : Json := (j.field? "labelFingerprint").getD (.str "")
def replaceLabels (kind : String) (name labels : Json) : M Unit := do
  let j ← ask (kind ++ ".get") [("name",name)]
  setLabels kind name labels (fingerprintOf j)
def changeLabels (kind : String) (name : Json) (f : Fields → Fields) : M Unit := do
  let j ← ask (kind ++ ".get") [("name",name)]
  let old := (j.field? "labels").getD (.obj [])
  let new := Json.obj (f old.fields)
  if !new.same old then setLabels kind name new (fingerprintOf j)
end
end Engine
namespace Job
variable [MonadStateOf Job M]
def refresh : M Json := do
  let j ← getThe Job
  if isEnd (← ensured (stateOf j.document)) then pure j.document
  else
    let document ← Engine.getJob (.str j.name)
    set { j with document := document }
    pure document
def status : M Json := do ensured (stateOf (← refresh))

/-- Asks for the state up to so many times more, with pauses, until the job has ended. -/
def await : Nat → Json → M Json
  | 0, document => pure document
  | n+1, document => do
    if isEnd (← ensured (stateOf document)) then pure document
    else
      pause (.float 0.5)
      await n (← refresh)

/-- The results, once the job has ended; they are fetched only once if there are any. -/
def fetch : M (List (Trial Number)) := do
  let j ← getThe Job
  if !j.results.isEmpty then pure j.results
  else
    let document ← await 1000 (← refresh)
    match ← ensured (stateOf document) with
    | .str "SUCCESS" =>
      let results ← Engine.getResults (.str j.name)
      modify fun (j : Job) => { j with results := results }
      pure results
    | state =>
      let name ← ensured (item "name" document)
      throw (⟨.runtime,some s!"Job {shown name} did not succeed. It is in state {shown state}."⟩ : Fault)
end Job
end QuantumCircuits.Remote
