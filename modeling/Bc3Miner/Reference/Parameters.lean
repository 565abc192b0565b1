import Bc3Miner.Reference.Words

/-!
# The parameters of the modular primitives

The exponents, bases and curve points of `bc3hash/vendor/bc3/constants.hpp`, the number that a fold
begins with, the pair of numbers for a point there is none of, and the order and the generator that
`mix.cpp` writes out.

Each is written in hexadecimal as the source has it; the checks on them, that points are on the
curve and that numbers are below their moduli, are where they are used.
-/

set_option autoImplicit false
set_option relaxedAutoImplicit false

namespace Bc3Miner.Reference

def e64 : UInt 1 := UInt.hex 0x08cc1751c4763fa1

def g64 : UInt 1 := UInt.hex 0x7b484f6c1cf497f2

def e128 : UInt 2 := UInt.hex 0x928a70e905d1724afa5aa27fac6a65b3

def g128 : UInt 2 := UInt.hex 0x77c60c1d221a0804b223833f64cdffc9

def e256 : UInt 4 := UInt.hex 0x77f21ca678d771adb27c7c729029c0a72d97ec3a6a936438a30182cddcf6c2a9

def g256 : UInt 4 := UInt.hex 0x49158f5d1ca2d69cb1f0dd8aee8aa6e21d4342fa7317c71643d782e9b25aae2b

def e512 : UInt 8 := UInt.hex
  (0x64b8abfc3896dd747402055dd3949748a94f4925455e9615388cb2c500c2bff5 * 2 ^ 256 +
    0x37ab2bcff1eba302e0676a14752566e21eb412aa7a25476d62368e88040e2dc1)

def g512 : UInt 8 := UInt.hex
  (0x53497ce4119b75481105f57628434a02009d13b190acc452bed0dfc44e520eb9 * 2 ^ 256 +
    0xa5918b928ccc97d7be6e5acae5e8ef1f0dac8fb97c4e6e4fa324ca905649b637)

/-- The chain that a fold begins with. -/
def bc3foldConst : UInt 8 := UInt.hex
  (0xa95819219c9b53f0490a4776581c49da51ce6a3ee49bb15b53ce983ff5bf9719 * 2 ^ 256 +
    0x43662f6ece8bd304cf0fce8246d6eae3f39893a3792ff58b6e17a9112a37c2ea)

/-- The points of the four curve tables. -/
def curveX : Fin 4 → UInt 4
  | 0 => UInt.hex 0x01f2a7758a894831908da9d9fc9974a3c68d19daac88c4f29e376c2727dd1f51
  | 1 => UInt.hex 0x5ef83d753a1c8f8b992bccdf95badacc54886da7a336b8e56c9d0eb3936b3d02
  | 2 => UInt.hex 0x304053761b5b7b89577fb84108c5b1a90ed27c06fd39ac546b1be2d29086a7d4
  | 3 => UInt.hex 0x00830b79c191b3a74e671752e4325abb1a4dfd84ef6e506f967eeae175b44f54

def curveY : Fin 4 → UInt 4
  | 0 => UInt.hex 0x0451ca57637f54107233f2f21a81f7dabc11f967389e16f3e63515bdc148278a
  | 1 => UInt.hex 0xce9c40d1d51301d7933f6e2d1a12f2c26703e3e3b5feac898ceac5c945d05d5f
  | 2 => UInt.hex 0x2466a619190c993b840bb99184802f35f5b289ad67aa61cae821f1712c441b58
  | 3 => UInt.hex 0x1c79c0c4acfbe7b4adf19e234da0ef8bf5bb0790dc35d7b2dd4ceb9296544e56

/-- `INVALID_POINT_x` and `INVALID_POINT_y`. -/
def invalidPoint : UInt 4 × UInt 4 :=
  (UInt.hex 0xfffffffffffffffffffffffffffffffffffffffffffffffffffffffefffffc2f,
    UInt.hex 0x0f63cbbb426c5da1ae3609da2bb48f73cca6988067678d8db0d1596d3e58acfd)

/-- The generator of the curve, which `mix.cpp` writes out. -/
def generatorX : UInt 4 :=
  UInt.hex 0x79be667ef9dcbbac55a06295ce870b07029bfcdb2dce28d959f2815b16f81798

def generatorY : UInt 4 :=
  UInt.hex 0x483ada7726a3c4655da4fbfc0e1108a8fd17b448a68554199c47d08ffb10d4b8

/-- The order that a scalar is reduced by. -/
def order : UInt 4 :=
  UInt.hex 0xfffffffffffffffffffffffffffffffebaaedce6af48a03bbfd25e8cd0364141

end Bc3Miner.Reference
