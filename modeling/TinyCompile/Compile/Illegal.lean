import TinyCompile.Compile.Main
import TinyCompile.Parser.Buffer

set_option autoImplicit false

/-!
# Compile: bytes that start no token

The lexer makes an error token of such a byte, and `parser_advance` passes over error tokens
without a word.  So an error is recorded only where the tokens around the byte are no valid
program.
-/

namespace TinyCompile.Compile

open TinyCompile.Machine TinyCompile.Source TinyCompile.Ir TinyCompile.Jit TinyCompile.Parser

/-! ## Illegal bytes -/

section

variable {fresh : Nat → IRFunction} {buffers : Nat → Ptr} {mem : Mem} {ctx : CompilationContext}

end

/-! ## A byte that is passed over -/

end TinyCompile.Compile
