import ProcLowering.Emit.Emitter

set_option autoImplicit false

namespace ProcLowering

inductive Step where
  | line (line : UInt32)
  | null
  | constant (constant : Constant)
  | self
  | src
  | getLocal (slot : UInt16)
  | setLocal (slot : UInt16)
  | field (name : String)
  | operator (op : Opcode)
  | arguments (names : List (Option String))
  | callerArguments
  | call (reference : Reference)
  | pop
  | ret
  | unlessNull (guarded : List Step)
  | fault (cause : Fault)
deriving Repr

namespace Step

mutual

def emit : Step → Emission Unit
  | .line n => Emitter.setLine n
  | .null => Emitter.pushNull
  | .constant value => Emitter.pushConstant value
  | .self => Emitter.pushSelf
  | .src => Emitter.pushSrc
  | .getLocal slot => Emitter.getLocal slot
  | .setLocal slot => Emitter.setLocal slot
  | .field name => Emitter.dereferenceField name
  | .operator op => Emitter.plain op
  | .arguments names => Emitter.pushArguments names
  | .callerArguments => Emitter.pushCallerArguments
  | .call reference => Emitter.call reference
  | .pop => Emitter.pop
  | .ret => Emitter.plain .ret
  | .unlessNull guarded => do
    let label ← Emitter.allocateLabel
    Emitter.skipIfNull label
    emitAll guarded
    Emitter.bindLabel label
  | .fault cause => throw cause

def emitAll : List Step → Emission Unit
  | [] => return ()
  | step :: rest => do
    step.emit
    emitAll rest

end

end Step

end ProcLowering
