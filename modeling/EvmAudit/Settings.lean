/-! The settings of a run. A switch is on when it is not zero. -/

namespace EvmAudit

structure Settings where
  reportMode : Int := 0
  printMode : Int := 0
  debugMode : Int := 0
  checkConcurrencyFp : Int := 0
  /-- Milliseconds for one question to the solver. -/
  timeout : Int := 100
  /-- Two compares concrete results with a recorded test, three symbolic ones. -/
  unitTest : Int := 0
  globalTimeout : Int := 50
  globalTimeoutTest : Int := 2
  printPaths : Int := 0
  web : Int := 0
  storeResult : Int := 0
  depthLimit : Int := 50
  gasLimit : Int := 4000000
  loopLimit : Int := 10
  useGlobalBlockchain : Int := 0
  useGlobalStorage : Int := 0
  inputState : Int := 0
  checkAssertions : Int := 0
  generateTestCases : Int := 0
  parallel : Int := 0
  deriving DecidableEq, Repr, Inhabited

namespace Settings

def fields (s : Settings) : List (String × Int) :=
  [("REPORT_MODE", s.reportMode), ("PRINT_MODE", s.printMode), ("DEBUG_MODE", s.debugMode),
    ("CHECK_CONCURRENCY_FP", s.checkConcurrencyFp), ("TIMEOUT", s.timeout),
    ("UNIT_TEST", s.unitTest), ("GLOBAL_TIMEOUT", s.globalTimeout),
    ("GLOBAL_TIMEOUT_TEST", s.globalTimeoutTest), ("PRINT_PATHS", s.printPaths), ("WEB", s.web),
    ("STORE_RESULT", s.storeResult), ("DEPTH_LIMIT", s.depthLimit), ("GAS_LIMIT", s.gasLimit),
    ("LOOP_LIMIT", s.loopLimit), ("USE_GLOBAL_BLOCKCHAIN", s.useGlobalBlockchain),
    ("USE_GLOBAL_STORAGE", s.useGlobalStorage), ("INPUT_STATE", s.inputState),
    ("CHECK_ASSERTIONS", s.checkAssertions), ("GENERATE_TEST_CASES", s.generateTestCases),
    ("PARALLEL", s.parallel)]

def set (s : Settings) (name : String) (n : Int) : Settings :=
  match name with
  | "REPORT_MODE" => { s with reportMode := n }
  | "PRINT_MODE" => { s with printMode := n }
  | "DEBUG_MODE" => { s with debugMode := n }
  | "CHECK_CONCURRENCY_FP" => { s with checkConcurrencyFp := n }
  | "TIMEOUT" => { s with timeout := n }
  | "UNIT_TEST" => { s with unitTest := n }
  | "GLOBAL_TIMEOUT" => { s with globalTimeout := n }
  | "GLOBAL_TIMEOUT_TEST" => { s with globalTimeoutTest := n }
  | "PRINT_PATHS" => { s with printPaths := n }
  | "WEB" => { s with web := n }
  | "STORE_RESULT" => { s with storeResult := n }
  | "DEPTH_LIMIT" => { s with depthLimit := n }
  | "GAS_LIMIT" => { s with gasLimit := n }
  | "LOOP_LIMIT" => { s with loopLimit := n }
  | "USE_GLOBAL_BLOCKCHAIN" => { s with useGlobalBlockchain := n }
  | "USE_GLOBAL_STORAGE" => { s with useGlobalStorage := n }
  | "INPUT_STATE" => { s with inputState := n }
  | "CHECK_ASSERTIONS" => { s with checkAssertions := n }
  | "GENERATE_TEST_CASES" => { s with generateTestCases := n }
  | "PARALLEL" => { s with parallel := n }
  | _ => s

def setAll (s : Settings) (given : List (String × Int)) : Settings :=
  given.foldl (fun s (name, n) => s.set name n) s

end Settings

def on (setting : Int) : Bool := setting != 0

end EvmAudit
