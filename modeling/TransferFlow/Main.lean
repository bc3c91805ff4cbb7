import TransferFlow.CommandLine

open TransferFlow

/-- The environment variables that configure document access. -/
def currentEnvironment : IO Environment := do
  return {
    flowsDir := ← IO.getEnv "FLOW_MCP_FLOWS_DIR"
    extensions := ← IO.getEnv "FLOW_MCP_EXTENSIONS"
    maxFileSize := ← IO.getEnv "FLOW_MCP_MAX_FILE_SIZE" }

def main (args : List String) : IO UInt32 := do
  let cwd := (FilePath.ofString ((← IO.getEnv "PWD").getD "/")).resolve { names := [] }
  let run := Run.ofArguments cwd (← currentEnvironment) args false
  IO.print run.output
  for line in run.log do
    IO.eprintln line
  match run.ending with
  | .returned => return 0
  | .exited code => return code.toUInt32
  | .failed (.malformedSize found) =>
    IO.eprintln ("The size limit is no whole number: " ++ found)
    return 1
