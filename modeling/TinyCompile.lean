import TinyCompile.Compile.Analyze
import TinyCompile.Compile.Collect
import TinyCompile.Compile.Illegal
import TinyCompile.Compile.Exact
import TinyCompile.Compile.OperandOrder
import TinyCompile.Ir.Chunks
import TinyCompile.Ir.LastVreg
import TinyCompile.Ir.Literals
import TinyCompile.Ir.Paths
import TinyCompile.Ir.Scoping
import TinyCompile.Ir.Slots
import TinyCompile.Ir.StmtRuns
import TinyCompile.Jit.Balance
import TinyCompile.Jit.Boundary
import TinyCompile.Jit.Decoded
import TinyCompile.Jit.Print
import TinyCompile.Jit.Straight
import TinyCompile.Parser.Buffer
import TinyCompile.Parser.Operators
import TinyCompile.Parser.ParamArray
import TinyCompile.Semantic.Scoping
import TinyCompile.X86.Exec
