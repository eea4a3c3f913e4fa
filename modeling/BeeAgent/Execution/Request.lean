import BeeAgent.Data.Value

/-! Action requests: the schema checks, path canonicalization, the digest that binds an
idempotency key to one request, and the decisions an authorization policy returns. -/
namespace BeeAgent.Execution
open BeeAgent.Data

structure StdoutCompletion where
  property : String
  equals : String ⊕ Number
  deriving DecidableEq

structure StdioStep where
  input : String
  waitFor : Option StdoutCompletion
  deriving DecidableEq

structure ResourceRequirements where
  readPaths : List String := []
  writePaths : List String := []
  networkTargets : List String := []
  commands : List (List String) := []
  commandStdin : Option String := none
  stdoutCompletion : Option StdoutCompletion := none
  commandStdio : Option (List StdioStep) := none
  secretEnv : List (String × String) := []
  workingDirectory : Option String := none
  timeoutMs : Option ℕ := none
  maxOutputBytes : Option ℕ := none
  deriving DecidableEq

inductive SubjectType where
  | user | agent | system | tool
  deriving DecidableEq

def SubjectType.text : SubjectType → String
  | .user => "user"
  | .agent => "agent"
  | .system => "system"
  | .tool => "tool"

structure Subject where
  type : SubjectType
  id : String
  deriving DecidableEq

structure ActionScope where
  threadId : String
  turnId : String
  itemId : Option String
  deriving DecidableEq

structure ActionRequest where
  id : String
  idempotencyKey : String
  capability : String
  subject : Subject
  input : Value
  requirements : ResourceRequirements
  expectedEffects : List String
  verification : List String
  scope : ActionScope
  structureVersion : Option String

/-- `node:path` on POSIX. -/
def isAbsolute (path : String) : Bool := path.toList.head? == some '/'

/-- `AbsolutePathSchema`; the first character test already refuses the empty path. -/
def absolutePath (path : String) : Bool := path != "" && isAbsolute path

def envName (name : String) : Bool :=
  match name.toList with
  | [] => false
  | c :: cs => (c.isUpper || c == '_') && cs.all fun d => d.isUpper || d == '_' || d.isDigit

def StdoutCompletion.accepted (c : StdoutCompletion) : Bool := c.property != ""

/-- `CommandStdioSequenceSchema`: some step, and the last one waits for a response. -/
def stdioAccepted (steps : List StdioStep) : Bool :=
  (steps.all fun s => s.waitFor.all StdoutCompletion.accepted) &&
    (steps.getLast?.any fun s => s.waitFor.isSome)

def ResourceRequirements.accepted (r : ResourceRequirements) : Bool :=
  r.readPaths.all absolutePath && r.writePaths.all absolutePath &&
    (r.commands.all fun argv => argv.head?.any isAbsolute) &&
    r.stdoutCompletion.all StdoutCompletion.accepted && r.commandStdio.all stdioAccepted &&
    (r.secretEnv.all fun e => envName e.1 && e.2 != "") &&
    r.workingDirectory.all absolutePath &&
    r.timeoutMs.all (0 < ·) && r.maxOutputBytes.all (0 < ·)

/-- What `ActionRequestSchema.parse` refuses in a value of the right type; a request id is a UUID
by construction. -/
def ActionRequest.accepted (r : ActionRequest) : Bool :=
  r.idempotencyKey != "" && r.capability != "" && r.subject.id != "" &&
    r.requirements.accepted && r.expectedEffects.all (· != "") && r.verification.all (· != "") &&
    r.scope.threadId != "" && r.scope.turnId != "" && r.scope.itemId.all (· != "") &&
    r.structureVersion.all (· != "")

/-- Resolves symlinks and missing-path ancestors before policy and approval. `canonicalPath` is
what the file system answers at the time of the call. -/
def canonicalizeActionRequest (canonicalPath : String → Except String String)
    (candidate : ActionRequest) : Except String ActionRequest := do
  if !candidate.accepted then throw "invalid action request"
  let r := candidate.requirements
  if (r.commandStdin.isSome || r.stdoutCompletion.isSome || r.commandStdio.isSome) &&
      r.commands.length != 1 then
    throw "Command stdio controls require exactly one command"
  if r.commandStdin.isSome && r.commandStdio.isSome then
    throw "Command stdin and staged stdio are mutually exclusive"
  let readPaths ← r.readPaths.mapM canonicalPath
  let writePaths ← r.writePaths.mapM canonicalPath
  let commands ← r.commands.mapM fun argv =>
    match argv with
    | [] => pure []
    | executable :: args => do pure ((← canonicalPath executable) :: args)
  let workingDirectory ← r.workingDirectory.mapM canonicalPath
  return { candidate with
    requirements := { r with
      readPaths := readPaths.eraseDups
      writePaths := writePaths.eraseDups
      commands
      workingDirectory } }

def StdoutCompletion.toValue (c : StdoutCompletion) : Value :=
  .object [("kind", .string "json-line-property"), ("property", .string c.property),
    ("equals", c.equals.elim .string .number)]

def StdioStep.toValue (s : StdioStep) : Value :=
  .object (("input", .string s.input) ::
    optionalField "waitFor" (s.waitFor.map StdoutCompletion.toValue))

def ResourceRequirements.toValue (r : ResourceRequirements) : Value :=
  .object ([("readPaths", strings r.readPaths), ("writePaths", strings r.writePaths),
      ("networkTargets", strings r.networkTargets), ("commands", .array (r.commands.map strings))] ++
    optionalField "commandStdin" (r.commandStdin.map .string) ++
    optionalField "stdoutCompletion" (r.stdoutCompletion.map StdoutCompletion.toValue) ++
    optionalField "commandStdio" (r.commandStdio.map fun steps =>
      .object [("kind", .string "json-lines"), ("steps", .array (steps.map StdioStep.toValue))]) ++
    [("secretEnv", .object (r.secretEnv.map fun e => (e.1, .string e.2)))] ++
    optionalField "workingDirectory" (r.workingDirectory.map .string) ++
    optionalField "timeoutMs" (r.timeoutMs.map fun n => .number (.ofNat n)) ++
    optionalField "maxOutputBytes" (r.maxOutputBytes.map fun n => .number (.ofNat n)))

def Subject.toValue (s : Subject) : Value :=
  .object [("type", .string s.type.text), ("id", .string s.id)]

def ActionScope.toValue (s : ActionScope) : Value :=
  .object ([("threadId", .string s.threadId), ("turnId", .string s.turnId)] ++
    optionalField "itemId" (s.itemId.map .string))

/-- Callers write the key `structureVersion` also when its value is `undefined`. -/
def ActionRequest.toValue (r : ActionRequest) : Value :=
  .object [("id", .string r.id), ("idempotencyKey", .string r.idempotencyKey),
    ("capability", .string r.capability), ("subject", r.subject.toValue), ("input", r.input),
    ("requirements", r.requirements.toValue), ("expectedEffects", strings r.expectedEffects),
    ("verification", strings r.verification), ("scope", r.scope.toValue),
    ("structureVersion", r.structureVersion.elim .undefined .string)]

/-- The hash is `node:crypto`'s, in hexadecimal. -/
def requestDigest (sha256 : String → String) (request : ActionRequest) : String :=
  "sha256:" ++ sha256 (canonicalJson request.toValue)

def executionStreamId (sha256 : String → String) (idempotencyKey : String) : String :=
  "execution:" ++ sha256 idempotencyKey

def approvalDetail (request : ActionRequest) : String :=
  canonicalJson (.object [("capability", .string request.capability), ("input", request.input),
    ("requirements", request.requirements.toValue),
    ("expectedEffects", strings request.expectedEffects),
    ("verification", strings request.verification)])

inductive Decision where
  | allow | ask | deny
  deriving DecidableEq

structure AuthorizationDecision where
  decision : Decision
  reason : String
  deriving DecidableEq

structure PermissionLayerDecision where
  id : String
  decision : Decision
  reason : String
  deriving DecidableEq

structure SandboxCapabilityReport where
  provider : String
  filesystemIsolation : Bool
  networkIsolation : Bool
  processIsolation : Bool
  deriving DecidableEq

structure PermissionSnapshot where
  capability : String
  decision : Decision
  reason : String
  layers : List PermissionLayerDecision
  sandbox : Option SandboxCapabilityReport := none
  deriving DecidableEq

/-- The declared requirements that the sandbox of the call cannot enforce. -/
def unsupported (r : ResourceRequirements) (capabilities : SandboxCapabilityReport) :
    List String :=
  (if 0 < r.readPaths.length ∧ !capabilities.filesystemIsolation then ["readPaths"] else []) ++
  (if 0 < r.writePaths.length ∧ !capabilities.filesystemIsolation then ["writePaths"] else []) ++
  (if 0 < r.networkTargets.length ∧ !capabilities.networkIsolation then ["networkTargets"]
    else []) ++
  (if 0 < r.commands.length ∧ !capabilities.processIsolation then ["commands"] else [])

end BeeAgent.Execution
