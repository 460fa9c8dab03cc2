import QuantumCircuits.Json

/-! # The surroundings of a tool

What a tool gets back from programs, requests, files and the clock may depend on everything that has been done so far;
what it does is kept on record, also when it fails. -/
namespace QuantumCircuits
namespace Tooling
structure Request where
  method : String
  url : String
  sent : Fields := []
inductive Event where
  | exec (words : List String) (options : Fields)
  | shell (command : String) (options : Fields)
  | request (r : Request)
  | enter (path : String)
  | copyTree (source target : String)
  | removeTree (path : String)
  | sleep (seconds : Number)
  | reported (cause : Cause) (shown : String)
inductive Content where
  | document (j : Json)
  | text (s : String)
def Content.shown : Content → String
  | document j => j.spaced
  | text s => s
structure Reply where
  code : Int := 200
  content : Content := .text ""
  cookies : Fields := []
structure ProgramEnd where
  out : String := ""
  err : String := ""
  code : Int := 0
abbrev Time := Int
structure World where
  run : List Event → List String → Option ProgramEnd
  reply : List Event → Request → Reply
  /-- The clock may go on also where nothing is done between two readings. -/
  now : List Event → Nat → Time
  files : List (String × String) := []
  arguments : List String := []
  settings : List (String × String) := []
  directory : String := "/cwd"
  patience : Nat := 3
structure Trace where
  events : List Event := []
  out : String := ""
  err : String := ""
  ticking : Bool := false
  directories : Nat := 0
  readings : Nat := 0
  seen : List (Int × Time) := []

/-- A fault with its text, which is known also where the fault keeps none. -/
structure Failure where
  fault : Fault
  shown : String
def Failure.raised (cause : Cause) (why : String) : Failure := ⟨⟨cause,some why⟩,why⟩
def implied {α : Type} (cause : Cause) (why : String) : Except Failure α := .error ⟨.bare cause,why⟩
inductive Halt where
  | failed (f : Failure)
  | exit (code : Int)
  | stopped
abbrev Tool (α : Type) := ExceptT Halt (ReaderT World (StateM Trace)) α
inductive Stream where
  | out | err
  deriving DecidableEq
namespace Tool
def run (t : Tool α) (w : World) (s : Trace) : Except Halt α × Trace := (ExceptT.run t).run w |>.run s
def orFail : Except Failure α → Tool α
  | .ok a => pure a
  | .error f => throw (.failed f)
instance : MonadLift (Except Failure) Tool := ⟨orFail⟩
def fail (cause : Cause) (why : String) : Tool α := throw (.failed (.raised cause why))
def exit (code : Int) : Tool α := throw (.exit code)
def note (e : Event) : Tool Unit := modify fun s => { s with events := s.events ++ [e] }
def write (stream : Stream) (text : String) : Tool Unit := modify fun s => match stream with
  | .out => { s with out := s.out ++ text }
  | .err => { s with err := s.err ++ text }
def print (line : String) : Tool Unit := write .out (line ++ "\n")
def complain (line : String) : Tool Unit := write .err (line ++ "\n")

/-- Runs a tool and answers its failure, if it fails; leaving and stopping are not failures. -/
def attempt (t : Tool α) : Tool (Except Failure α) :=
  tryCatch (do pure (.ok (← t))) fun
    | .failed f => pure (.error f)
    | h => throw h
def caught (t : Tool α) : Tool (Except Halt α) := tryCatch (do pure (.ok (← t))) fun h => pure (.error h)
def finally' (t : Tool α) (after : Tool Unit) : Tool α := do
  let r ← caught t
  after
  MonadExcept.ofExcept r
def started (e : Event) (words : List String) : Tool ProgramEnd := do
  let ended := (← read).run (← get).events words
  note e
  match ended with
  | some e => pure e
  | none => implied .missingFile (words.headD "")
def exec (words : List String) (options : Fields) : Tool ProgramEnd := started (.exec words options) words
def shell (command : String) (options : Fields) : Tool ProgramEnd := started (.shell command options) [command]
def request (r : Request) : Tool Reply := do
  let a := (← read).reply (← get).events r
  note (.request r)
  pure a
def now : Tool Time := do
  let s ← get
  set { s with readings := s.readings+1 }
  pure ((← read).now s.events s.readings)
def file? (path : String) : Tool (Option String) := do pure ((← read).files.lookup path)
def setting? (name : String) : Tool (Option String) := do pure ((← read).settings.lookup name)
def sleep (seconds : Number) : Tool Unit := do
  note (.sleep seconds)
  let slept := (← get).events.countP fun
    | .sleep _ => true
    | _ => false
  if (← read).patience ≤ slept then throw .stopped
def temporaryDirectory (start : String) : Tool String := do
  let n := (← get).directories+1
  modify fun s => { s with directories := n }
  pure s!"/tmp/{start}{n}"
end Tool
def joinPath (a b : String) : String :=
  if Text.startsWith "/" b then b
  else if a.isEmpty || Text.endsWith "/" a then a ++ b
  else s!"{a}/{b}"
def joinPaths (a : String) (bs : List String) : String := bs.foldl joinPath a

/-! ## Running programs

Programs are run with their output forwarded, kept, or both. -/
open Tool Text
namespace Color
def bold : Int := 1
def red : Int := 31
def green : Int := 32
def yellow : Int := 33
end Color
def highlight (color : String) (strong : Bool) (text : String) : String :=
  (if strong then "\x1b[1m" else "") ++ "\x1b[" ++ color ++ "m" ++ text ++ "\x1b[0m"
def colored (color : Int) (text : String) : String := highlight (toString color) false text
structure Sink where
  keep : Bool := false
  forward : Option Stream := none
namespace Sink
def forwarded (s : Stream) : Sink := ⟨false,some s⟩
def kept : Sink := ⟨true,none⟩
def tee (s : Stream) : Sink := ⟨true,some s⟩
def take (s : Sink) (text : String) : Tool (Option String) := do
  match s.forward with
  | some stream => write stream text
  | none => pure ()
  pure (if s.keep then some text else none)
end Sink
structure CommandOutput where
  out : Option String
  err : Option String
  code : Int
structure RunOptions where
  out : Sink := .forwarded .out
  err : Sink := .forwarded .err
  mustSucceed : Bool := true
  announced : Bool := true
  abbreviated : Bool := false
  passed : Fields := []
def abbreviate : List String → Except Failure (List String)
  | [] => implied .index "tuple index out of range"
  | c :: args =>
    let switches := args.takeWhile (startsWith "-")
    .ok (c :: switches ++ if switches.length < args.length then ["[...]"] else [])
def wordsText (ws : List String) : String := parenthesized (ws.map quoted)
def signalNames : List (Int × String) :=
  [(1,"SIGHUP"),(2,"SIGINT"),(3,"SIGQUIT"),(4,"SIGILL"),(5,"SIGTRAP"),(6,"SIGABRT"),(7,"SIGBUS"),(8,"SIGFPE"),
   (9,"SIGKILL"),(10,"SIGUSR1"),(11,"SIGSEGV"),(12,"SIGUSR2"),(13,"SIGPIPE"),(14,"SIGALRM"),(15,"SIGTERM")]
def commandFailed (shown : String) (code : Int) : Failure :=
  .raised (.named "CalledProcessError") (s!"Command '{shown}' "
    ++ (if code < 0 then match signalNames.lookup (-code) with
      | some name => s!"died with <Signals.{name}: {-code}>."
      | none => s!"died with unknown signal {-code}."
    else s!"returned non-zero exit status {code}."))
variable (o : RunOptions) (words : List (Option String))
def CommandOutput.collect (shown : String) (e : ProgramEnd) : Tool CommandOutput := do
  let out ← o.out.take e.out
  let err ← o.err.take e.err
  if o.mustSucceed && e.code != 0 then throw (.failed (commandFailed shown e.code))
  pure ⟨out,err,e.code⟩
def runCommand : Tool CommandOutput := do
  let words := words.filterMap id
  if o.announced then complain s!"run: {wordsText (← if o.abbreviated then abbreviate words else pure words)}"
  CommandOutput.collect o (wordsText words) (← exec words o.passed)
def runShell (command : String) : Tool CommandOutput := do
  if o.announced then complain ("shell: " ++ command)
  CommandOutput.collect o command (← shell command o.passed)
def outputWith : Tool String := do
  let r ← runCommand { o with announced := false, out := .kept } words
  let s := r.out.getD ""
  pure (if endsWith "\n" s then takeStart (s.length-1) s else s)
def outputOf : Tool String := outputWith {} words
def perform : Tool Unit := discard (runCommand o words)
end Tooling

/-! ## Calendar times

Dates and times of day, counted in seconds from the start of 1970. -/
namespace Tooling.Calendar
open Text
/-- Days from the start of 1970 to a date; years are counted from March so that leap days come last. -/
def daysBefore (y m d : Int) : Int :=
  let y := if m ≤ 2 then y-1 else y
  let era := y.fdiv 400
  let yoe := y-era*400
  let doy := (153*(if m > 2 then m-3 else m+9)+2).fdiv 5 + d-1
  era * 146097 + (yoe*365 + yoe.fdiv 4 - yoe.fdiv 100 + doy)-719468
def dateOf (days : Int) : Int × Int × Int :=
  let z := days+719468
  let era := z.fdiv 146097
  let doe := z-era*146097
  let yoe := (doe - doe.fdiv 1460 + doe.fdiv 36524 - doe.fdiv 146096).fdiv 365
  let doy := doe-(365*yoe + yoe.fdiv 4 - yoe.fdiv 100)
  let mp := (5*doy+2).fdiv 153
  let m := if mp < 10 then mp+3 else mp-9
  (yoe+era*400+(if m ≤ 2 then 1 else 0),m,doy - (153*mp+2).fdiv 5 + 1)
def isLeap (y : Int) : Bool := y % 4 == 0 && (y % 100 != 0 || y % 400 == 0)
def daysIn (y m : Int) : Int :=
  if m = 2 then (if isLeap y then 29 else 28) else if m = 4 || m = 6 || m = 9 || m = 11 then 30 else 31
def field? (year : Bool) (s : String) : Option Int :=
  let cs := s.toList
  if cs.all Char.isDigit && (if year then cs.length == 4 else cs.length == 1 || cs.length == 2) then
    some ((cs.foldl (fun n c => 10*n+(c.toNat-48)) 0 : Nat) : Int)
  else none
def format : String := "%Y-%m-%dT%H:%M:%SZ"
def parse? (s : String) : Option Time := do
  let [date,time] := splitAt 'T' s | none
  let [y,m,d] := splitAt '-' date | none
  let [h,n,rest] := splitAt ':' time | none
  guard (endsWith "Z" rest)
  let y ← field? true y
  let m ← field? false m
  let d ← field? false d
  let h ← field? false h
  let n ← field? false n
  let z ← field? false (takeStart (rest.length-1) rest)
  guard (1 ≤ y ∧ 1 ≤ m ∧ m ≤ 12 ∧ 1 ≤ d ∧ d ≤ daysIn y m ∧ h ≤ 23 ∧ n ≤ 59 ∧ z ≤ 59)
  some (daysBefore y m d * 86400 + h*3600+n*60+z)
def two (n : Int) : String := if n < 10 then s!"0{n}" else toString n
def text (t : Time) : String :=
  let days := t.fdiv 86400
  let (y,m,d) := dateOf days
  let r := t-days*86400
  let year := toString y
  repeatText (4-year.length) "0" ++ year ++ "-" ++ two m ++ "-" ++ two d ++ " " ++ two (r.fdiv 3600) ++ ":" ++ two (r.fdiv 60 % 60)
    ++ ":" ++ two (r % 60)
end Tooling.Calendar

/-! ## Coverage of changed lines

Lines that a change touches should be run by the tests. -/
namespace Tooling.Coverage
open Text Tool Color PlainZero
def optOut : String := "#coverage:ignore"
variable (s : String)
def unblanked : String := String.ofList (s.toList.filter (!isBlank ·))
variable (line : String)
def isScopeMarker : Bool := unblanked line == optOut
def isLineMarker : Bool := endsWith optOut (unblanked line)
def indentation : String := String.ofList (line.toList.takeWhile isBlank)
def inBlock (indent line : String) : Bool := (unblanked line).isEmpty || startsWith indent line

/-- The number of the first line after the block of line `i`. Negative numbers count from the end, and what follows the
last line is then the first one again. -/
def blockEnd (lines : List String) (i : Int) : Outcome Int :=
  let k := if i < 0 then i+lines.length else i
  match if k < 0 then none else lines[k.toNat]? with
  | none => fails .index
  | some line =>
    let rest := lines.drop k.toNat ++ if i < 0 then lines else []
    .ok (i+((rest.takeWhile (inBlock (indentation line))).length : Nat))
def optedOutFrom (i : Nat) : List String → List Nat
  | [] => []
  | line :: rest =>
    if isScopeMarker line then
      let n := (rest.takeWhile (inBlock (indentation line))).length
      List.range' i (n+1) ++ optedOutFrom (i+n+1) (rest.drop n)
    else if isLineMarker line then i :: optedOutFrom (i+1) rest
    else optedOutFrom (i+1) rest
termination_by ls => ls.length
decreasing_by all_goals simp only [List.length_cons,List.length_drop]; omega
def optedOut (content : String) : List Nat := optedOutFrom 1 (lines content)
def after? (part : List Char) : List Char → Option (List Char)
  | [] => if part.isEmpty then some [] else none
  | c :: cs => match afterStart? part (c :: cs) with
    | some rest => some rest
    | none => after? part cs
def before? (part : List Char) : List Char → Option (List Char)
  | [] => if part.isEmpty then some [] else none
  | c :: cs => if (afterStart? part (c :: cs)).isSome then some [] else (before? part cs).map (c :: ·)

/-- A whole number as it may be written: blanks around it, a sign, digits with single underscores between them. -/
def wholeNumber? : Option Int :=
  let cs := (trim s).toList
  let (negative,cs) := match cs with
    | '-' :: r => (true,r)
    | '+' :: r => (false,r)
    | r => (false,r)
  let groups := splitChars (· == '_') cs
  if groups.all fun g => !g.isEmpty && g.all Char.isDigit then
    let n : Int := ((groups.flatten.foldl (fun n c => 10*n+(c.toNat-48)) 0 : Nat) : Int)
    some (if negative then -n else n)
  else none
def wholeNumber : Except Failure Int :=
  (wholeNumber? s).elim (implied .value ("invalid literal for int() with base 10: " ++ quoted s)) .ok
def hunk : Except Failure (Int × Int) := do
  let some change := before? " @@".toList (line.toList.drop 3) | implied .value "substring not found"
  let some new := (splitAt ' ' (String.ofList change))[1]? | implied .index "list index out of range"
  let parts := splitAt ',' new
  .ok (← wholeNumber (parts.headD ""),← parts[1]?.elim (.ok 1) wholeNumber)

/-- Touched lines with the reason why they are of interest; a later reason takes the place of an earlier one. -/
abbrev Touched := List (Int × String)
def Touched.set (t : Touched) (i : Int) (reason : String) : Touched :=
  if t.any (·.1 == i) then t.map fun (j,r) => (j,if j == i then reason else r) else t ++ [(i,reason)]
def touched (diff : List String) : Except Failure Touched :=
  (diff.filter (startsWith "@@ ")).foldlM (fun t line => do
    let (start,count) ← hunk line
    let (n,reason) := if count = 0 then (2,"is near a removal") else (count.toNat,"is new or changed")
    .ok ((List.range n).foldl (fun t (k : Nat) => t.set (start+k) reason) t)) []
def unmarked : String :=
  let line := trimRight line
  if startsWith "!" line then dropStart 1 line else line
def lineGoesOn : Option (List Char) → Bool
  | some (c :: _) => c != '\n'
  | _ => false
def goesOn (start line : String) : Bool := lineGoesOn (afterStart? start.toList line.toList)
def exempt : Bool :=
  let single := !s.toList.contains '\n'
  (single && (["import ","main(","assert False"].any (goesOn · s)
      || lineGoesOn (do after? " import ".toList ((← afterStart? "from ".toList s.toList).drop 1))))
    || s == "else:" || s == "pass"
    || (match s.toList with
      | 'a' :: 'p' :: 'p' :: c :: rest => c != '\n' && String.ofList rest == "run(main)"
      | _ => false)
    || lineGoesOn (after? "raise NotImplementedError(".toList s.toList)
    || contains "except ImportError" s
def needsRun (content : String) : Bool :=
  !content.isEmpty && !(["def","class"].any fun k => startsWith k content && endsWith ":" content)
def uncovered (annotated : Bool) (line : String) : Bool :=
  if annotated && !startsWith "! " line then false
  else
    let content := trim (if annotated then dropStart 2 line else line)
    let content := trim (String.ofList (content.toList.takeWhile (· != '#')))
    !exempt content && (annotated || needsRun content)

/-- Whether changes of a file are looked at: tools, generated files and the installer are not. -/
def isChecked (path : String) : Bool :=
  let generated (ending : String) : Bool := endsWith ending path && path.length > ending.length
  endsWith ".py" path && !(goesOn "dev_tools/" path || generated "_pb2.py" || generated "_pb2_grpc.py" || path == "setup.py")
def fileLines : List String :=
  let ls := lines s
  (ls.dropLast.map (· ++ "\n")) ++ match ls.getLast? with
    | some "" | none => []
    | some l => [l]
def uncoveredLines (path : String) (base actual : Option String) : Tool (List (Nat × String × String)) := do
  match ← file? path with
  | none => pure []
  | some content =>
    let diff ← outputOf ["git","diff","--unified=0",base,actual,"--",path]
    let lines := (lines diff).filter fun l => !(trim l).isEmpty
    let t ← touched lines
    let ignored := optedOut content
    let cover ← file? (path ++ ",cover")
    pure ((fileLines (cover.getD content)).zipIdx.filterMap fun (line,k) => do
      let reason ← t.lookup ((k : Int)+1)
      if !ignored.contains (k+1) && uncovered cover.isSome line then some (k+1,unmarked line,reason) else none)
def changedLine (n : Nat) (line reason : String) : String :=
  s!"Line {colored bold (padLeft 4 (toString n))} {reason} but not covered: {colored yellow line}"
def report (directory : Option String) (base actual : Option String) (files : List String) : Tool Nat := do
  let counts ← (files.filter isChecked).mapM fun file => do
    let some d := directory | implied .type "expected str, bytes or os.PathLike object, not NoneType"
    let ls ← uncoveredLines (joinPath d file) base actual
    if !ls.isEmpty then print (colored red s!"************* {file} ({ls.length} uncovered)")
    ls.forM fun (n,line,reason) => print (changedLine n line reason)
    pure ls.length
  let count := counts.sum
  print ""
  print (if count = 0 then colored green "All touched lines covered"
    else colored red s!"Found {count} uncovered touched lines.")
  print ""
  pure count
end Tooling.Coverage

/-! ## Command line options

Options with a value or without one, in any order. -/
namespace Tooling
open Text Tool
inductive OptionKind where
  | choice (of : List String)
  | number
  | flag
structure OptionSpec where
  name : String
  kind : OptionKind
  default : Json
namespace OptionSpec
def switch (o : OptionSpec) : String := "--" ++ o.name
def usage (o : OptionSpec) : String := match o.kind with
  | .choice of => s!"[{o.switch} " ++ braced [join "," of] ++ "]"
  | .number => s!"[{o.switch} {o.name.toUpper}]"
  | .flag => s!"[{o.switch}]"
end OptionSpec
structure OptionParser where
  program : String
  options : List OptionSpec
inductive Word where
  | plain
  | help
  | option (o : OptionSpec) (value : Option String)
  | unknown
namespace OptionParser
variable (p : OptionParser)
/-- Words filled into lines of a width; the first line starts further left or right than the others. -/
def fill (width indent : Nat) (used : Nat) (line : List String) : List String → List (List String)
  | [] => [line]
  | w :: ws =>
    if used+1+w.length > width && !line.isEmpty then line :: fill width indent (indent+w.length) [w] ws
    else fill width indent (used+1+w.length) (line ++ [w]) ws
def usage : String :=
  let start := "usage: "
  let indent := start.length+p.program.length+1
  let parts := "[-h]" :: p.options.map OptionSpec.usage
  let whole := s!"{start}{p.program} " ++ join " " parts
  if whole.length ≤ 78 then whole ++ "\n"
  else
    let lines := fill 78 indent (start.length-1) [] (p.program :: parts)
    start ++ join ("\n" ++ blanks indent) (lines.map (join " ")) ++ "\n"
def refuse {α : Type} (why : String) : Tool α := do
  write .err p.usage
  complain s!"{p.program}: error: {why}"
  exit 2
def looksNegative (s : String) : Bool := match s.toList with
  | '-' :: cs =>
    let whole := cs.takeWhile Char.isDigit
    match cs.drop whole.length with
    | [] => !whole.isEmpty
    | '.' :: rest => !rest.isEmpty && rest.all Char.isDigit
    | _ => false
  | _ => false

/-- The options that a name cut short may stand for; none stands for the request for help. -/
def candidates (name : String) : List (Option OptionSpec) :=
  (if startsWith name "--help" then [none] else [])
    ++ (p.options.filter fun o => startsWith name o.switch).map some
def classify (s : String) : Tool Word := do
  let (name,value) := match splitAt '=' s with
    | n :: v :: vs => (n,some (join "=" (v :: vs)))
    | _ => (s,none)
  if !startsWith "-" s then pure .plain
  else if s == "-h" || s == "--help" then pure .help
  else match p.options.find? (·.switch == s) with
    | some o => pure (.option o none)
    | none =>
      if s.length == 1 then pure .plain
      else match p.options.find? (·.switch == name) with
        | some o => pure (.option o value)
        | none => match if startsWith "--" name then p.candidates name else [] with
          | [none] => pure .help
          | [some o] => pure (.option o value)
          | [] => pure (if looksNegative s || s.toList.contains ' ' then .plain else .unknown)
          | os => p.refuse (s!"ambiguous option: {s} could match "
              ++ join ", " (os.map fun o => match o with
                | some o => o.switch
                | none => "--help"))
def readValue (o : OptionSpec) (s : String) : Tool Json := match o.kind with
  | .choice of =>
    if of.contains s then pure (.str s)
    else p.refuse (s!"argument {o.switch}: invalid choice: {quoted s} (choose from "
      ++ join ", " (of.map quoted) ++ ")")
  | _ => match Coverage.wholeNumber? s with
    | some n => pure (.int n)
    | none => p.refuse s!"argument {o.switch}: invalid int value: {quoted s}"
def read (found : Fields) (left : List String) : List (String × Word) → Tool (Fields × List String)
  | [] => pure (found,left)
  | (s,.plain) :: ws | (s,.unknown) :: ws => read found (left ++ [s]) ws
  | (_,.help) :: _ => do
    write .out p.usage
    exit 0
  | (_,.option o (some v)) :: ws => do
    match o.kind with
    | .flag => p.refuse s!"argument {o.switch}: ignored explicit argument {quoted v}"
    | _ =>
      let value ← p.readValue o v
      read (Json.setField o.name value found) left ws
  | (_,.option o none) :: ws => match o.kind with
    | .flag => read (Json.setField o.name (.bool true) found) left ws
    | _ => match ws with
      | (s,.plain) :: ws => do
        let value ← p.readValue o s
        read (Json.setField o.name value found) left ws
      | _ => p.refuse s!"argument {o.switch}: expected one argument"
def parse (words : List String) : Tool Json := do
  let classified ← words.mapM fun s => do pure (s,← p.classify s)
  let (found,left) ← p.read (p.options.map fun o => (o.name,o.default)) [] classified
  if left.isEmpty then pure (.obj found) else p.refuse ("unrecognized arguments: " ++ join " " left)
end OptionParser

/-! ## Prepared environments

A working copy at a commit, the commit that it is compared with, and where its programs are installed. -/
structure Repository where
  organization : String
  name : String
  token : Option Json
namespace Repository
variable (r : Repository)
def remote : String := s!"git@github.com:{r.organization}/{r.name}.git"
def tokenText : String := r.token.elim "None" Json.display
def address (organization name rest token : String) : String :=
  s!"https://api.github.com/repos/{organization}/{name}/{rest}?access_token={token}"
def url (rest : String) : String := address r.organization r.name rest r.tokenText
end Repository
structure Environment where
  repository : Option Repository
  actual : Option String
  base : Option String
  directory : Option String
  installed : Option String
namespace Environment
/-- An environment; a commit is never compared with itself but with the one before it. -/
def make (repository : Option Repository) (actual base directory installed : Option String) : Tool Environment :=
  if actual == base then
    match base with
    | some b => pure ⟨repository,actual,b ++ "~1",directory,installed⟩
    | none => implied .type "unsupported operand type(s) for +=: 'NoneType' and 'str'"
  else pure ⟨repository,actual,base,directory,installed⟩
variable (e : Environment)
def program (name : String) : String := e.installed.elim name fun p => joinPaths p ["bin",name]
def place : Tool String := match e.directory with
  | some d => pure d
  | none => implied .type "expected str, bytes or os.PathLike object, not NoneType"
def reportStatus (state description context : String) (target : Option String) : Tool Unit := do
  if !(["error","failure","pending","success"].contains state) then
    fail .value ("Unrecognized state: " ++ quoted state)
  match e.repository.filter (·.token.isSome) with
  | some r =>
    complain (parenthesized [quoted "report_status",quoted context,quoted state,quoted description,target.elim "None" quoted])
    let document := [("state",Json.str state),("description",.str description),("context",.str context)]
      ++ (target.map fun t => ("target_url",.str t)).toList
    let a ← request ⟨"POST",r.url ("statuses/" ++ e.actual.getD "None"),[("json",.obj document)]⟩
    if a.code ≠ 201 then fail .system s!"Request failed. Code: {a.code}. Content: {quotedBytes a.content.shown}."
  | none => pure ()
def changedFiles : Tool (List String) := do
  let out ← outputWith { passed := [("cwd",e.directory.elim .null .str)] }
    ["git","diff","--name-only",e.base,e.actual,"--"]
  pure ((lines out).filter fun l => !(trim l).isEmpty)
end Environment
/-- The paths of files below a directory: what stands in the directory first, then its subdirectories in order. Hidden
directories are left out with all that is in them. -/
def sourceFilesIn : Nat → String → List (List String) → List String
  | 0, _, _ => []
  | n+1, directory, paths =>
    let hidden := startsWith "." ((splitAt '/' directory).getLast?.getD "")
    if hidden then []
    else
      let here := sort (paths.filterMap fun p => match p with
        | [f] => some f
        | _ => none)
      let wanted := here.filter fun f => endsWith ".py" f && !endsWith "_pb2.py" f
      let below := sort ((paths.filterMap fun p => match p with
        | d :: _ :: _ => some d
        | _ => none).eraseDups)
      wanted.map (joinPath directory) ++ below.flatMap fun d =>
        sourceFilesIn n (joinPath directory d) (paths.filterMap fun p => match p with
          | d' :: f :: rest => if d' == d then some (f :: rest) else none
          | _ => none)
variable (directory : String)
def sourceFiles : Tool (List String) := do
  let root := if endsWith "/" directory then directory else directory ++ "/"
  let paths := (← read).files.filterMap fun (p,_) =>
    (afterStart? root.toList p.toList).map fun rest => splitAt '/' (String.ofList rest)
  pure (sourceFilesIn ((paths.map List.length).foldl max 0) directory paths)
def quietly (verbose : Bool) : Option String := if verbose then none else some "--quiet"
def install (place : String) (requirements : List String) (interpreter : String) (verbose : Bool) : Tool Unit := do
  let o : RunOptions := { out := .forwarded .err }
  perform o ["virtualenv",quietly verbose,"-p",interpreter,place]
  requirements.forM fun r => perform o [joinPaths place ["bin","pip"],"install",quietly verbose,"-r",r]
def repositoryRoot : Tool String := outputOf ["git","rev-parse","--show-toplevel"]
def fetched : Tool String := outputOf ["git","rev-parse","FETCH_HEAD"]

/-- Fetches two branches, deeper and deeper until they have a commit in common; answers the first branch's commit and
what it is to be compared with. -/
def fetchForComparison (remote actual base : String) (verbose : Bool) (found : String × String) :
    List String → Tool (String × String)
  | [] => pure found
  | depth :: deeper => do
    let fetch (branch : String) : Tool String := do
      perform { announced := verbose } ["git","fetch",quietly verbose,remote,branch,depth]
      fetched
    let a ← fetch actual
    let b ← fetch base
    match ← attempt (outputOf ["git","merge-base",a,b]) with
    | .ok common => pure (a,common)
    | .error f =>
      if f.fault.cause = .named "CalledProcessError" then fetchForComparison remote actual base verbose (a,b) deeper
      else throw (.failed f)
def depths : List String := ["--depth=10","--depth=100","--depth=1000",""]
def fetchBoth (remote actual : String) (verbose : Bool) : Tool Environment := do
  let (a,b) ← fetchForComparison remote actual "master" verbose ("","") depths
  Environment.make none (some a) (some b) none none
def enter (path : String) : Tool Unit := note (.enter path)
def checkOut (repository : Option Repository) (e : Environment) (directory : String) (verbose : Bool) : Tool Environment := do
  perform { announced := verbose } ["git","branch",quietly verbose,"compare_commit",e.base]
  perform { announced := verbose } ["git","checkout",quietly verbose,"-b","actual_commit",e.actual]
  Environment.make repository e.actual e.base (some directory) none
def fetchPullRequest (repository : Repository) (number : Json) (verbose : Bool) : Tool Environment := do
  enter directory
  complain ("chdir " ++ directory)
  perform { out := .forwarded .err } ["git","init",quietly verbose]
  let e ← fetchBoth repository.remote s!"pull/{number.display}/head" verbose
  checkOut (some repository) e directory verbose
def fetchLocal (verbose : Bool) : Tool Environment := do
  let staging := directory ++ "-staging"
  let o : RunOptions := { out := .forwarded .err, announced := verbose }
  let visit (path : String) : Tool Unit := do
    enter path
    if verbose then complain ("chdir " ++ path)
  let e ← finally' (do
      note (.copyTree (← repositoryRoot) staging)
      visit staging
      perform o ["git","add","--all"]
      perform o ["git","commit","-m","working changes","--allow-empty","--no-gpg-sign",quietly verbose]
      let commit ← outputOf ["git","rev-parse","HEAD"]
      visit directory
      perform o ["git","init",quietly verbose]
      fetchBoth staging commit verbose)
    (note (.removeTree staging))
  checkOut none e directory verbose
def prepare (repository : Repository) (pull : Option Json) (verbose : Bool) (interpreter : String)
    (announce : Environment → Tool Unit) : Tool Environment := do
  let e ← match pull with
    | some n => fetchPullRequest directory repository n verbose
    | none => fetchLocal directory verbose
  announce e
  let base := e.directory.getD directory
  let place := joinPath base ".test_virtualenv"
  install place [joinPath base "requirements.txt",joinPaths base ["dev_tools","conf","pip-list-dev-tools.txt"],
    joinPaths base ["cirq","contrib","contrib-requirements.txt"]] interpreter verbose
  Environment.make e.repository e.actual e.base e.directory (some place)
def prepareConverted (e : Environment) (verbose : Bool) : Tool Environment := do
  note (.removeTree directory)
  let source ← e.place
  enter source
  perform { out := .forwarded .err }
    ["bash",joinPaths source ["dev_tools","python2.7-generate.sh"],directory,source,e.installed]
  enter directory
  let place := joinPath directory ".test_virtualenv_py2"
  install place [joinPath directory "requirements.txt",joinPath directory "pip-list-test-tools.txt",
    joinPaths directory ["cirq","contrib","contrib-requirements.txt"]] "/usr/bin/python2.7" verbose
  Environment.make e.repository e.actual e.base (some directory) (some place)

/-! ## Checks

Some checks make sense only after others have passed. -/
open Color Coverage
inductive Check where
  | lint | types | tests | coverage | convertedTests
  deriving DecidableEq
structure CheckResult where
  check : Check
  success : Bool
  message : String
  unexpected : Option String
namespace Check
def all : List Check := [lint,types,tests,coverage,convertedTests]
def switch : Check → String
  | lint => "pylint"
  | types => "typecheck"
  | tests => "pytest"
  | coverage => "incremental-coverage"
  | convertedTests => "pytest2"
def context : Check → String
  | coverage => "incremental coverage"
  | convertedTests => "pytest v2.7"
  | c => c.switch
def dependencies : Check → List Check
  | coverage => [tests]
  | _ => []
def needsConverted (c : Check) : Bool := c == convertedTests
def ofSwitch? (s : String) : Option Check := all.find? (·.switch == s)
def starRuns : Nat → List Char → Nat
  | _, [] => 0
  | n, c :: cs => if c == '*' then if n = 9 then starRuns 0 cs + 1 else starRuns (n+1) cs else starRuns 0 cs
def filledLines (s : String) : List String := (lines s).filter fun l => !(trim l).isEmpty

/-- The number of failures in a line like `=== 3 failed`; something stands before it. -/
def failures? (line : String) : Option String :=
  let at' (cs : List Char) : Option String := do
    let rest ← afterStart? "=== ".toList cs
    let digits := rest.takeWhile isDigit
    let _ ← afterStart? " failed".toList (rest.drop digits.length)
    if digits.isEmpty then none else some (String.ofList digits)
  let tails := (List.range line.length).map fun k => line.toList.drop (k+1)
  tails.reverse.findSome? at'
def testFailures (output : String) : Tool String := do
  match (filledLines output).getLast? with
  | none => implied .index "list index out of range"
  | some line => pure ((failures? line).elim "Tests failed." (· ++ " tests failed."))
def runProgram (e : Environment) (name : String) (arguments : List (Option String)) (verbose abbreviated : Bool) :
    Tool (String × Bool) := do
  let r ← runCommand { out := .tee .out, mustSucceed := false, announced := verbose, abbreviated := abbreviated }
    (e.program name :: arguments)
  pure (r.out.getD "",r.code == 0)
def rules (option base file : String) : String := option ++ joinPaths base ["dev_tools","conf",file]
def perform (e : Environment) (verbose : Bool) : Check → Tool (Bool × String)
  | lint => do
    let base ← e.place
    let (out,passed) ← runProgram e "pylint"
      (rules "--rcfile=" base ".pylintrc" :: (← sourceFiles base).map some) verbose true
    if passed then pure (true,"No lint here!")
    else pure (false,s!"{((filledLines out).length : Int) - (starRuns 0 out.toList : Nat)} issues")
  | types => do
    let base ← e.place
    let (out,passed) ← runProgram e "mypy"
      (rules "--config-file=" base "mypy.ini" :: (← sourceFiles base).map some) verbose true
    if passed then pure (true,"Types look good!") else pure (false,s!"{(filledLines out).length} issues")
  | tests => do
    let base ← e.place
    let (out,passed) ← runProgram e "pytest"
      [base,quietly verbose,"--cov","--cov-report=annotate",rules "--cov-config=" base ".coveragerc"] verbose false
    if passed then pure (true,"Tests passed!") else pure (false,← testFailures out)
  | convertedTests => do
    let (out,passed) ← runProgram e "pytest" [e.directory,quietly verbose] verbose true
    if passed then pure (true,"Converted tests passed!") else pure (false,← testFailures out)
  | coverage => do
    let n ← report e.directory e.base e.actual (← e.changedFiles)
    if n = 0 then pure (true,"All covered!") else pure (false,s!"{n} touched uncovered lines")
end Check
def CheckResult.text (r : CheckResult) : String :=
  let outcome := if r.unexpected.isSome then "ERROR" else if r.success then "pass" else "FAIL"
  let said := r.unexpected.getD r.message
  colored (if r.success then green else red) s!"{outcome}: {r.check.context} ({said})"
namespace Check
def run (c : Check) (e : Environment) (verbose : Bool) (failed : List Check) : Tool CheckResult := do
  if c.dependencies.any failed.contains then
    print (colored yellow ("Skipped " ++ c.switch))
    pure ⟨c,false,"Skipped due to dependency failing.",none⟩
  else
    print (colored green ("Running " ++ c.switch))
    let r : CheckResult := match ← attempt (c.perform e verbose) with
      | .ok (success,message) => ⟨c,success,message,none⟩
      | .error f => ⟨c,false,"Unexpected error.",f.shown⟩
    print (colored (if r.success then green else red) ("Finished " ++ c.switch))
    if verbose then print r.text
    pure r
def runAndReport (c : Check) (e : Environment) (converted : Option Environment) (verbose : Bool) (failed : List Check) :
    Tool CheckResult := do
  e.reportStatus "pending" "Running..." c.context none
  let some chosen := if c.needsConverted then converted else some e
    | implied .attribute "'NoneType' object has no attribute 'destination_directory'"
  let some d := chosen.directory
    | implied .type "chdir: path should be string, bytes, os.PathLike or integer, not NoneType"
  enter d
  let r ← c.run chosen verbose failed
  if r.unexpected.isSome then e.reportStatus "error" "Unexpected error." c.context none
  else e.reportStatus (if r.success then "success" else "failure") r.message c.context none
  pure r

/-- A check after the checks it depends on; checks do not depend on those that depend on others. -/
def withDependencies (seen : List Check) (c : Check) : List Check :=
  if seen.contains c then seen
  else (c.dependencies.foldl (fun s d => if s.contains d then s else s ++ [d]) seen) ++ [c]
def sorted (cs : List Check) : List Check := cs.foldl withDependencies []
end Check
structure CheckRequest where
  pull : Option Json
  token : Option Json
  verbose : Bool
  checks : List Check
def between (part s : String) : String :=
  let rest := (after? part.toList s.toList).getD []
  String.ofList ((before? part.toList rest).getD rest)
def CheckRequest.ofArguments : Tool CheckRequest := do
  let args := (← read).arguments
  let only := (args.filter (startsWith "--only=")).map (between "--only=")
  let checks := if only.isEmpty then Check.all else Check.all.filter fun c => only.contains c.switch
  if !only.isEmpty && checks.length ≠ only.length then
    complain s!"Bad --only argument. Allowed values {bracketed (Check.all.map fun c => quoted c.switch)}."
    exit 1
  let positional := args.filter fun a => !startsWith "-" a
  let number (i : Nat) : Except Failure (Option Json) := positional[i]?.mapM fun s => do .ok (.int (← wholeNumber s))
  let pull ← number 1
  let token := (← number 2).or ((← setting? "CIRQ_GITHUB_ACCESS_TOKEN").map Json.str)
  pure ⟨pull,token,args.contains "--verbose",Check.sorted checks⟩
structure Progress where
  results : List CheckResult := []
  failed : List Check := []
  pending : List Check := []
  environment : Option Environment := none
def printResults (rs : List CheckResult) : Tool Unit := do
  print ""
  print "ALL CHECK RESULTS"
  rs.forM fun r => print r.text
def carryOut (e : Environment) (place : String) (verbose : Bool) (converted : Option Environment) (p : Progress) :
    List Check → Tool (Except Halt Unit × Progress)
  | [] => pure (.ok (),p)
  | c :: cs => do
    let step : Tool (Option Environment × CheckResult) := do
      let converted ← if converted.isNone && c.needsConverted then some <$> prepareConverted place e verbose
        else pure converted
      print ""
      pure (converted,← c.runAndReport e converted verbose p.failed)
    match ← caught step with
    | .error h => pure (.error h,p)
    | .ok (converted,r) =>
      print ""
      carryOut e place verbose converted
        { p with results := p.results ++ [r], failed := if r.success then p.failed else p.failed ++ [c],
                 pending := p.pending.erase c } cs
def runChecks : Tool Unit := do
  let q ← CheckRequest.ofArguments
  let first ← temporaryDirectory "test-cirq-"
  let second ← temporaryDirectory "test-cirq-py2-"
  let repository : Repository := ⟨"quantumlib","cirq",q.token⟩
  let announce (e : Environment) : Tool Unit :=
    q.checks.forM fun c => e.reportStatus "pending" "Preparing..." c.context none
  let (ended,p) ← match ← caught (prepare first repository q.pull q.verbose "python" announce) with
    | .error h => pure (.error h,{})
    | .ok e => carryOut e second q.verbose none { pending := q.checks, environment := some e } q.checks
  note (.removeTree first)
  note (.removeTree second)
  p.environment.forM fun e => p.pending.forM fun c => e.reportStatus "error" "Unexpected error." c.context none
  MonadExcept.ofExcept ended
  printResults p.results
  if p.results.any (·.unexpected.isSome) then fail .system "At least one check raised."
  if p.results.any (!·.success) then exit 1
def runSimpleChecks : Tool Unit := do
  let e ← Environment.make none none (some "master") (some (← read).directory) none
  let step (p : List CheckResult × List Check) (c : Check) : Tool (List CheckResult × List Check) := do
    print ""
    let r ← c.run e true p.2
    print ""
    pure (p.1 ++ [r],if r.success then p.2 else p.2 ++ [c])
  let (results,_) ← [Check.lint,.types,.tests,.coverage].foldlM step ([],[])
  printResults results
  if results.any (!·.success) then exit 1
def runTestsAndCoverage : Tool Unit := do
  match (← read).arguments[1]? with
  | none =>
    print (colored red "Must specify a comparison branch (e.g. \"origin/master\" or \"HEAD~1\").")
    exit 1
  | some branch =>
    let e ← Environment.make none none (some branch) (some (← read).directory) none
    let results := [← Check.tests.run e false [],← Check.coverage.run e false []]
    if results.any (!·.success) then
      print (colored red "Failed.")
      exit 1
end Tooling
end QuantumCircuits
