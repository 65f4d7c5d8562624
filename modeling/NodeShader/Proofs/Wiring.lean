import NodeShader.Proofs.Compatibility

namespace NodeShader

open Relation Schedule

namespace Bench

variable {b : Bench} {n : Node} {t : NodeType} {wires wires' : Dict Term}

end Bench

namespace Schedule

variable {g : Graph} {lib : Library} {id a : String} {done rest : List String}

end Schedule

namespace Draft

variable {g : Graph} {lib : Library} {settings : Settings} {before d : Draft} {n : Node}
  {t : NodeType} {wires : Dict Term} {done : List String}

end Draft

end NodeShader
