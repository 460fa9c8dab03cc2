import QuantumCircuits.Tooling.World

/-! # Pull requests

What a server tells about them, and the requests by which they are read and changed. -/
namespace QuantumCircuits
namespace Tooling
def kindOf : Json → String
  | .null => "NoneType"
  | .bool _ => "bool"
  | .num (.int _) => "int"
  | .num (.float _) => "float"
  | .str _ => "str"
  | .arr _ => "list"
  | .obj _ => "dict"
namespace Document
def get (k : String) : Json → Except Failure Json
  | .obj fs => (fs.lookup k).elim (implied .key (Text.quoted k)) .ok
  | .arr _ => implied .type "list indices must be integers or slices, not str"
  | .str _ => implied .type "string indices must be integers, not 'str'"
  | j => implied .type s!"'{kindOf j}' object is not subscriptable"
def path (ks : List String) (j : Json) : Except Failure Json := ks.foldlM (fun j k => get k j) j
def items : Json → Except Failure (List Json)
  | .arr xs => .ok xs
  | .obj fs => .ok (fs.map fun (k,_) => .str k)
  | .str s => .ok (s.toList.map fun c => .str (String.singleton c))
  | j => implied .type s!"'{kindOf j}' object is not iterable"
def lower : Json → Except Failure String
  | .str s => .ok s.toLower
  | j => implied .attribute s!"'{kindOf j}' object has no attribute 'lower'"
def isText (s : String) : Json → Bool
  | .str t => s == t
  | _ => false
def time : Json → Except Failure Time
  | .str s => (Calendar.parse? s).elim
      (implied .value s!"time data {Text.quoted s} does not match format {Text.quoted Calendar.format}") .ok
  | j => implied .type s!"strptime() argument 1 must be str, not {kindOf j}"
def anyOf (test : Json → Except Failure Bool) : List Json → Except Failure Bool
  | [] => .ok false
  | x :: xs => do if ← test x then .ok true else anyOf test xs
end Document
def Content.decode : Content → Except Failure Json
  | .document j => .ok j
  | .text s => (Json.parse? s).elim (implied (.named "JSONDecodeError") "Expecting value: line 1 column 1 (char 0)") .ok
structure PullRequest where
  payload : Json
  repository : Repository
open Document
namespace PullRequest
variable (p : PullRequest)
def number : Except Failure Json := get "number" p.payload
def branch : Except Failure Json := path ["head","ref"] p.payload
def baseBranch : Except Failure Json := path ["base","ref"] p.payload
def sha : Except Failure Json := path ["head","sha"] p.payload
def title : Except Failure Json := get "title" p.payload
def body : Except Failure Json := get "body" p.payload
def source : Except Failure (Json × Json) := do
  let owner ← path ["head","repo","owner","login"] p.payload
  .ok (owner,← path ["head","repo","name"] p.payload)
def isOnFork : Except Failure Bool := do
  let (owner,name) ← p.source
  let own := p.repository.organization.toLower == (← lower owner)
  .ok (!(own && p.repository.name.toLower == (← lower name)))
def hasLabel (label : String) : Except Failure Bool := do
  anyOf (fun l => do .ok (isText label (← get "name" l))) (← items (← get "labels" p.payload))
def updated : Except Failure Time := do time (← get "updated_at" p.payload)

/-- Whether the branch has all of the base branch: no if it is behind, unknown in most other states. -/
def synced : Except Failure (Option Bool) := do
  match ← lower (← get "mergeable_state" p.payload) with
  | "behind" => .ok (some false)
  | "clean" => .ok (some true)
  | _ => .ok none
end PullRequest
def mergeLabel : String := "automerge"
def headLabel : String := "front_of_queue_automerge"
def mergeLabels : List String := [mergeLabel,headLabel]
def PullRequest.isMarked (p : PullRequest) : Except Failure Bool := do
  if ← p.hasLabel mergeLabel then .ok true else p.hasLabel headLabel
def recentSpan : Int := 30
def isRecent (t : Time) : Tool Bool := do pure (decide ((← Tool.now)-t < recentSpan))
structure Refusal where
  reason : String
  mayPass : Bool := false
inductive Attempt where
  | done
  | unchanged
  | refused (r : Refusal)
def unexpectedReply (what : String) (a : Reply) : String :=
  s!"{what} Code: {a.code}. Content: {Text.quotedBytes a.content.shown}."
def expecting (code : Int) (what : String) (q : Request) : Tool Reply := do
  let a ← Tool.request q
  if a.code = code then pure a else Tool.fail .runtime (unexpectedReply what a)
def fetch (what : String) (q : Request) : Tool Json := do
  (← expecting 200 what q).content.decode
namespace Repository
variable (r : Repository) (number : Json)
def pullRequest : Tool PullRequest := do
  pure ⟨← fetch "Pull check failed." ⟨"GET",r.url ("pulls/" ++ number.display),[]⟩,r⟩
def branchDetails (branch : Json) : Tool Json :=
  fetch "Failed to get branch details." ⟨"GET",r.url ("branches/" ++ branch.display),[]⟩
def reference (ref : Json) : Tool Json := fetch "Refs get failed." ⟨"GET",r.url ("git/refs/" ++ ref.display),[]⟩
def masterSha : Tool Json := do path ["object","sha"] (← r.reference (.str "heads/master"))
def comments : Tool Json :=
  fetch "Comments get failed." ⟨"GET",r.url s!"issues/{number.display}/comments",[]⟩
def addComment (number text : Json) : Tool Unit :=
  discard <| expecting 201 "Add comment failed."
    ⟨"POST",r.url s!"issues/{number.display}/comments",[("json",.obj [("body",text)])]⟩
def editComment (text comment : Json) : Tool Unit :=
  discard <| expecting 200 "Edit comment failed."
    ⟨"PATCH",r.url ("issues/comments/" ++ comment.display),[("json",.obj [("body",text)])]⟩
def deleteComment (comment : Json) : Tool Unit :=
  discard <| expecting 204 "Comment delete failed." ⟨"DELETE",r.url ("issues/comments/" ++ comment.display),[]⟩
def addLabels (labels : List Json) (token : Option Json) : Tool Unit :=
  let token := (token.filter Json.truthy).elim r.tokenText Json.display
  discard <| expecting 200 "Add labels failed."
    ⟨"POST",address r.organization r.name s!"issues/{number.display}/labels" token,[("json",.arr labels)]⟩
def hadNoLabel (a : Reply) : Except Failure Bool := do
  if a.code = 404 then .ok (isText "Label does not exist" (← get "message" (← a.content.decode))) else .ok false
def removeLabel (number label : Json) : Tool Bool := do
  let a ← Tool.request ⟨"DELETE",r.url s!"issues/{number.display}/labels/{label.display}",[]⟩
  if ← hadNoLabel a then pure false
  else if a.code = 200 then pure true
  else Tool.fail .runtime (unexpectedReply "Label remove failed." a)
def openPullRequests (base : Option Json) : Tool (List PullRequest) := do
  let sent := Json.obj ([("state",Json.str "open")] ++ (base.map fun b => ("base",b)).toList)
  let pulls ← items (← fetch "List pulls failed." ⟨"GET",r.url "pulls",[("json",sent)]⟩)
  pure (pulls.map fun p => ⟨p,r⟩)
def markedPullRequests : Tool (List Json) := do
  (← (← r.openPullRequests none).filterM (·.isMarked)).mapM (·.number)
def checkCollaborator (user : Json) : Tool (Option Refusal) := do
  let j ← fetch "Collaborator check failed." ⟨"GET",r.url s!"collaborators/{user.display}/permission",[]⟩
  let permission ← get "permission" j
  if ["admin","write"].any (isText · permission) then pure none
  else pure (some ⟨"Only collaborators with write permission can use automerge.",false⟩)
def labellings (events : Json) : Except Failure (List Json) := do
  (← items events).filterM fun e => do
    if isText "labeled" (← get "event" e) then
      let label ← path ["label","name"] e
      .ok (mergeLabels.any (isText · label))
    else .ok false
def checkLabeler : Tool (Option Refusal) := do
  let relevant ← labellings (← fetch "Event check failed." ⟨"GET",r.url s!"issues/{number.display}/events",[]⟩)
  match relevant.getLast? with
  | none => pure (some ⟨"\"automerge\" label was never added.",false⟩)
  | some e => do r.checkCollaborator (← path ["actor","login"] e)
end Repository
namespace PullRequest
variable (p : PullRequest)
def commitUrl (rest : String) : Tool String := do
  pure (p.repository.url s!"commits/{(← p.sha).display}{rest}")
def statuses : Tool Json := do fetch "Get statuses failed." ⟨"GET",← p.commitUrl "/statuses",[]⟩
def combinedStatus : Tool Json := do fetch "Get status failed." ⟨"GET",← p.commitUrl "/status",[]⟩
def checkRuns : Tool Json := do
  fetch "Get check-runs failed."
    ⟨"GET",← p.commitUrl "/check-runs",[("headers",.obj [("Accept",.str "application/vnd.github.antiope-preview+json")])]⟩
def runsIn (j : Json) : Except Failure (List Json) := do items (← get "check_runs" j)
def reviews : Tool Json := do
  fetch "Get review failed." ⟨"GET",p.repository.url s!"pulls/{(← p.number).display}/reviews",[]⟩
def runState (run : Json) : Except Failure (Bool × Bool) := do
  if !isText "completed" (← get "status" run) then .ok (false,true)
  else .ok (!isText "success" (← get "conclusion" run),false)
def runsState : List Json → Except Failure (Bool × Bool)
  | [] => .ok (false,false)
  | run :: runs => do
    let one ← runState run
    let rest ← runsState runs
    .ok (one.1 || rest.1,one.2 || rest.2)
def statusState (state : Json) : Except Failure (Bool × Bool) :=
  if isText "failure" state then .ok (true,false)
  else if isText "pending" state then .ok (false,true)
  else if isText "success" state then .ok (false,false)
  else .error (.raised .runtime ("Unrecognized status state: " ++ state.literal))

/-- Whether all checks have passed: no if one has failed, unknown if one has not ended. -/
def checksState : Tool (Option Bool) := do
  let one ← statusState (← get "state" (← p.combinedStatus))
  let runs ← runsState (← runsIn (← p.checkRuns))
  pure (if one.1 || runs.1 then some false else if one.2 || runs.2 then none else some true)
def baseDetails (master : Option Json) : Tool Json := do
  let base ← p.baseBranch
  match master.filter fun _ => isText "master" base with
  | some m => pure m
  | none => p.repository.branchDetails base
def absentChecks (master : Option Json) : Tool (List Json) := do
  let details ← p.baseDetails master
  let statuses ← p.statuses
  let runs ← p.checkRuns
  let present ← (← items statuses).mapM (get "context" ·)
  let names ← (← runsIn runs).mapM (get "name" ·)
  let required ← items (← path ["protection","required_status_checks","contexts"] details)
  pure (required.filter fun c => !(present ++ names).any c.same)
end PullRequest
end Tooling

/-! ## Merging on request

Pull requests that are marked for it are merged one at a time, once nothing speaks against it. -/
namespace Tooling.MergeBot
open Document Tool Text Json
def log (line : String) : Tool Unit := do
  if (← get).ticking then print ""
  modify fun s => { s with ticking := false }
  print line
def waitForNextRound : Tool Unit := do
  modify fun s => { s with ticking := true }
  write .out "."
  sleep (.float 10.0)
def named (start : String) (p : PullRequest) : Tool String := do
  pure s!"{start}{(← p.number).display} ({(← p.title).literal})"
variable (p : PullRequest) (r : Repository)
def syncWithMaster : Tool Attempt := do
  let master ← p.repository.masterSha
  let (owner,name) ← p.source
  let branch ← p.branch
  let sent := obj [("base",branch),("head",master),("commit_message",.str "Update branch (automerge)")]
  let a ← request
    ⟨"POST",Repository.address owner.display name.display "merges" p.repository.tokenText,[("json",sent)]⟩
  if a.code = 201 then
    log ((← named "Synced #" p) ++ " with master.")
    pure .done
  else if a.code = 204 then pure .unchanged
  else if a.code = 409 then pure (.refused ⟨"There's a merge conflict.",false⟩)
  else if a.code = 403 then
    pure (.refused ⟨"Spurious failure. Github API requires me to be an admin on the fork repository to merge master into the PR branch. Hit 'Update Branch' for me before trying again.",false⟩)
  else fail .runtime (unexpectedReply "Sync with master failed for unknown reason." a)
inductive PagePart where
  | fixed (s : String)
  | gap (least : Nat)
  | value

/-- Reads the values of a page. Gaps are as long as they can be, the first one before all others. -/
def readPage : List PagePart → List Char → Option (List String)
  | [], _ => some []
  | .fixed s :: ps, cs => match afterStart? s.toList cs with
    | some rest => readPage ps rest
    | none => none
  | .gap least :: ps, cs =>
    let cs := cs.drop least
    (List.range (cs.length+1)).reverse.findSome? fun k => readPage ps (cs.drop k)
  | .value :: ps, cs =>
    let v := cs.takeWhile (· != '"')
    if v.isEmpty then none else (readPage ps (cs.drop v.length)).map (String.ofList v :: ·)
def updateForm : List PagePart :=
  [.gap 0,.fixed "<form class=\"branch-action-btn",.gap 0,.fixed "action=\"",.gap 1,.fixed "/pull/",.gap 1,
   .fixed "/update_branch\"",.gap 0,.fixed "<input name=\"utf8\" type=\"hidden\" value=\"",.value,.fixed "\"",.gap 0,
   .fixed "<input type=\"hidden\" name=\"authenticity_token\" value=\"",.value,.fixed "\"",.gap 0,
   .fixed "<input type=\"hidden\" name=\"expected_head_oid\" value=\"",.value,.fixed "\"",.gap 0,.fixed "</form>"]
def updateBranch : Tool Attempt := do
  match ← setting? "CIRQ_BOT_UPDATE_BRANCH_COOKIE" with
  | none => syncWithMaster p
  | some session =>
    let page := s!"https://github.com/{p.repository.organization}/{p.repository.name}/pull/{(← p.number).display}"
    let a ← expecting 200 "Failed to read PR page."
      ⟨"GET",page,[("cookies",.obj [("user_session",.str session)])]⟩
    match readPage updateForm a.content.shown.toList with
    | some [_,token,head] =>
      let data := obj [("utf8",.str "✓"),("authenticity_token",.str token),("expected_head_oid",.str head)]
      discard <| expecting 200 "Failed to hit update branch button."
        ⟨"POST",page ++ "/update_branch",[("cookies",.obj a.cookies),("data",data)]⟩
      pure .done
    | _ => fail .runtime s!"Failed to find update branch button. Html: {a.content.shown}."
def indent (s : String) : String := "    " ++ replace "\n" "\n    " s
def indented : Json → Except Failure String
  | .str s => .ok (indent s)
  | j => implied .attribute s!"'{kindOf j}' object has no attribute 'replace'"

/-- Merges a pull request as a single commit, provided that its branch is still at the commit known here. -/
def squashMerge : Tool Attempt := do
  let number ← p.number
  let title ← p.title
  let body ← p.body
  let sha ← p.sha
  let sent := obj [("commit_title",.str s!"{title.display} (#{number.display})"),("commit_message",body),
    ("sha",sha),("merge_method",.str "squash")]
  let a ← request ⟨"PUT",p.repository.url s!"pulls/{number.display}/merge",[("json",sent)]⟩
  if a.code = 200 then
    log ((← named "Merged PR#" p) ++ ":\n" ++ (← (indented body)) ++ "\n")
    pure .done
  else if a.code = 405 then pure (.refused ⟨"Pull Request is not mergeable.",false⟩)
  else if a.code = 409 then pure .unchanged
  else fail .runtime (unexpectedReply "Merge failed." a)

/-- Deletes the branch of a pull request, unless others are based on it or it is in another repository. -/
def deleteBranch : Tool Bool := do
  let branch ← p.branch
  let bases ← (← p.repository.openPullRequests (some branch)).mapM (·.baseBranch)
  if bases.any (·.same branch) then
    log s!"Not deleting branch {branch.literal}. It is used elsewhere."
    pure false
  else
    let home ← p.source
    if ← p.isOnFork then
      log s!"Not deleting branch {branch.literal}. It belongs to a fork ({home.1.display}/{home.2.display})."
      pure false
    else
      let a ← request ⟨"DELETE",Repository.address home.1.display home.2.display s!"git/refs/heads/{branch.display}"
        p.repository.tokenText,[]⟩
      if a.code = 204 then
        log s!"Deleted branch {branch.literal}."
        pure true
      else
        log (unexpectedReply "Delete failed." a)
        pure false
def objection (yes : Bool) (reason : String) : Option Refusal := if yes then some ⟨reason,false⟩ else none
def firstProblem : List (Tool (Option Refusal)) → Tool (Option Refusal)
  | [] => pure none
  | t :: ts => do
    let problem ← t
    if problem.isSome then pure problem else firstProblem ts
def anyReview (state : String) : List Json → Except Failure Bool := anyOf fun r => do .ok (isText state (← get "state" r))
def findSettledProblem (master : Json) (checks : Option Bool) : Tool (Option Refusal) := do
  let missing ← p.absentChecks (some master)
  if !missing.isEmpty then
    let names := sort (missing.map text)
    pure (some ⟨"A required status check is not present.\n\nMissing statuses: " ++ bracketed (names.map quoted),false⟩)
  else if isText "blocked" (← (get "mergeable_state" p.payload)) && checks == some true then
    pure (some ⟨"Merging is blocked (I don't understand why).",true⟩)
  else match ← (get "mergeable" p.payload) with
    | .bool false => pure (some ⟨"PR isn't classified as mergeable (I don't understand why).",true⟩)
    | _ => pure none
def reviewProblem : Tool (Option Refusal) := do
  let reviews ← items (← p.reviews)
  if !(← anyReview "APPROVED" reviews) then pure (some ⟨"No approved review.",false⟩)
  else do pure (objection (← anyReview "REQUEST_CHANGES" reviews) "A review is requesting changes.")
def checkProblem (master : Json) : Tool (Option Refusal) := do
  let checks ← p.checksState
  if checks == some false then pure (some ⟨"A status check is failing.",false⟩)
  else if ← isRecent (← p.updated) then pure none
  else findSettledProblem p master checks
def findProblem (master : Json) : Tool (Option Refusal) := firstProblem
  [do pure (objection (!isText "open" (← get "state" p.payload)) "Not an open pull request."),
   do pure (objection (!isText "master" (← p.baseBranch)) "Can only automerge into master."),
   do pure (objection (isText "dirty" (← get "mergeable_state" p.payload)) "There are merge conflicts."),
   do p.repository.checkLabeler (← p.number),
   reviewProblem p,
   checkProblem p master]
def cancel (reason : Refusal) : Tool Unit := do
  log ((← named "Cancelled automerge of PR#" p) ++ ": " ++ reason.reason)
  let number ← p.number
  p.repository.addComment number (.str ("Automerge cancelled: " ++ reason.reason))
  mergeLabels.forM fun label => do
    if ← (p.hasLabel label) then
      discard <| p.repository.removeLabel number (.str label)
def setSeen (number : Int) (t : Time) (seen : List (Int × Time)) : List (Int × Time) :=
  if seen.any (·.1 == number) then seen.map fun (n,u) => (n,if n == number then t else u) else seen ++ [(number,t)]

/-- A problem, unless it may pass and has not been seen for long; when it was first seen is kept in mind. -/
def lasting (problem : Option Refusal) (before : List (Int × Time)) : Tool (Option Refusal) := do
  if (problem.filter Refusal.mayPass).isNone then return problem
  let number := (← p.number).toInt
  let since := (before.lookup number).getD (← now)
  if ← isRecent since then
    modify fun s => { s with seen := setSeen number since s.seen }
    pure none
  else pure problem

/-- Looks at one of the open pull requests: answers it if it can be merged, and cancels it if it cannot for a lasting
reason. -/
def examine (master : Json) (before : List (Int × Time)) (listed : PullRequest) : Tool (Option PullRequest) := do
  if !(← listed.isMarked) then return none
  let p ← r.pullRequest (← listed.number)
  let problem ← findProblem p master
  (← lasting p problem before).forM (cancel p)
  pure (if problem.isNone then some p else none)
def masterTime (details : Json) : Except Failure Time := do time (← path ["commit","commit","committer","date"] details)
def gather : Tool (List PullRequest) := do
  let listed ← r.openPullRequests none
  let master ← r.branchDetails (.str "master")
  if ← isRecent (← (masterTime master)) then return []
  let before := (← get).seen
  modify fun s => { s with seen := [] }
  let found ← listed.mapM (examine r master before)
  pure (found.filterMap id)
def isTested (synced : Bool) : Tool Bool := do
  if synced then pure ((← p.checksState) == some true) else pure false

/-- How much a pull request is to be preferred: forks that can be merged at once first, forks that are behind last. -/
def rank : Tool (Int × Int) := do
  let synced := (← p.synced) == some true
  let tested ← isTested p synced
  let fork ← p.isOnFork
  let rank := if fork then (if tested then 5 else if synced then 4 else 0) else if tested then 3 else if synced then 2 else 1
  match ← p.number with
  | .num (.int n) => pure (rank,-n)
  | j => implied .type s!"bad operand type for unary -: '{kindOf j}'"
def rankBefore (a b : Int × Int) : Bool := a.1 < b.1 || (a.1 == b.1 && a.2 < b.2)
def highest (best : (Int × Int) × PullRequest) : List ((Int × Int) × PullRequest) → PullRequest
  | [] => best.2
  | x :: xs => highest (if rankBefore best.1 x.1 then x else best) xs
def ranked (ps : List PullRequest) : Tool (List ((Int × Int) × PullRequest)) :=
  ps.mapM fun p => do pure (← rank p,p)
def firstMarked : List PullRequest → Tool (Option PullRequest)
  | [] => pure none
  | p :: ps => do if ← (p.hasLabel headLabel) then pure (some p) else firstMarked ps

/-- The pull request that is next: one that has been made so before, or the one of highest rank, which is made so. -/
def pick (ps : List PullRequest) : Tool (Option PullRequest) := do
  if ps.isEmpty then return none
  let order := (← ranked ps).mergeSort fun a b => !rankBefore a.1 b.1
  match ← firstMarked (order.map Prod.snd) with
  | some p => pure (some p)
  | none => match ← ranked ps with
    | [] => pure none
    | x :: xs =>
      let p := highest x xs
      log ((← named "Automerging PR#" p) ++ " first.")
      p.repository.addLabels (← p.number) [.str headLabel] none
      pure (some p)
def finish (p : PullRequest) : Tool Attempt := do
  match ← squashMerge p with
  | .done =>
    discard <| deleteBranch p
    let number ← p.number
    mergeLabels.forM fun label => discard <| r.removeLabel number (.str label)
    pure .done
  | a => pure a
def step (p : PullRequest) : Tool Attempt := do
  match ← p.synced with
  | some false => updateBranch p
  | some true => finish r p
  | none => pure .unchanged
def advance (p : PullRequest) : Tool Unit := do
  match ← step r p with
  | .refused reason => cancel p reason
  | _ => pure ()
def dutyCycle : Tool Unit := do
  (← pick (← gather r)).forM (advance r)
def watch (r : Repository) : Nat → Tool Unit
  | 0 => pure ()
  | n+1 => do
    match ← attempt (dutyCycle r) with
    | .ok () => pure ()
    | .error f => note (.reported f.fault.cause f.shown)
    waitForNextRound
    watch r n
def tokenVariable : String := "CIRQ_BOT_GITHUB_ACCESS_TOKEN"
def start : Tool Unit := do
  match ← setting? tokenVariable with
  | none | some "" =>
    complain (tokenVariable ++ " not set.")
    exit 1
  | some token =>
    log "Watching for automergeable PRs."
    watch ⟨"quantumlib","cirq",some (.str token)⟩ (max 1 (← read).patience)
end Tooling.MergeBot
end QuantumCircuits
