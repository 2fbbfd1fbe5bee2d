import ParamThreading.Text.Boundaries

/-!
# The Unicode property Lowercase

The table holds the code points from 128 on; below that the lower-case letters are `a` to `z`.
-/

namespace ParamThreading

namespace Lowercase

/-- Places where the property Lowercase changes, from code point 128 on. -/
def changes : List Nat :=
  [0xaa, 0xab, 0xb5, 0xb6, 0xba, 0xbb, 0xdf, 0xf7, 0xf8, 0x100, 0x101, 0x102, 0x103, 0x104, 0x105,
   0x106, 0x107, 0x108, 0x109, 0x10a, 0x10b, 0x10c, 0x10d, 0x10e, 0x10f, 0x110, 0x111, 0x112,
   0x113, 0x114, 0x115, 0x116, 0x117, 0x118, 0x119, 0x11a, 0x11b, 0x11c, 0x11d, 0x11e, 0x11f,
   0x120, 0x121, 0x122, 0x123, 0x124, 0x125, 0x126, 0x127, 0x128, 0x129, 0x12a, 0x12b, 0x12c,
   0x12d, 0x12e, 0x12f, 0x130, 0x131, 0x132, 0x133, 0x134, 0x135, 0x136, 0x137, 0x139, 0x13a,
   0x13b, 0x13c, 0x13d, 0x13e, 0x13f, 0x140, 0x141, 0x142, 0x143, 0x144, 0x145, 0x146, 0x147,
   0x148, 0x14a, 0x14b, 0x14c, 0x14d, 0x14e, 0x14f, 0x150, 0x151, 0x152, 0x153, 0x154, 0x155,
   0x156, 0x157, 0x158, 0x159, 0x15a, 0x15b, 0x15c, 0x15d, 0x15e, 0x15f, 0x160, 0x161, 0x162,
   0x163, 0x164, 0x165, 0x166, 0x167, 0x168, 0x169, 0x16a, 0x16b, 0x16c, 0x16d, 0x16e, 0x16f,
   0x170, 0x171, 0x172, 0x173, 0x174, 0x175, 0x176, 0x177, 0x178, 0x17a, 0x17b, 0x17c, 0x17d,
   0x17e, 0x181, 0x183, 0x184, 0x185, 0x186, 0x188, 0x189, 0x18c, 0x18e, 0x192, 0x193, 0x195,
   0x196, 0x199, 0x19c, 0x19e, 0x19f, 0x1a1, 0x1a2, 0x1a3, 0x1a4, 0x1a5, 0x1a6, 0x1a8, 0x1a9,
   0x1aa, 0x1ac, 0x1ad, 0x1ae, 0x1b0, 0x1b1, 0x1b4, 0x1b5, 0x1b6, 0x1b7, 0x1b9, 0x1bb, 0x1bd,
   0x1c0, 0x1c6, 0x1c7, 0x1c9, 0x1ca, 0x1cc, 0x1cd, 0x1ce, 0x1cf, 0x1d0, 0x1d1, 0x1d2, 0x1d3,
   0x1d4, 0x1d5, 0x1d6, 0x1d7, 0x1d8, 0x1d9, 0x1da, 0x1db, 0x1dc, 0x1de, 0x1df, 0x1e0, 0x1e1,
   0x1e2, 0x1e3, 0x1e4, 0x1e5, 0x1e6, 0x1e7, 0x1e8, 0x1e9, 0x1ea, 0x1eb, 0x1ec, 0x1ed, 0x1ee,
   0x1ef, 0x1f1, 0x1f3, 0x1f4, 0x1f5, 0x1f6, 0x1f9, 0x1fa, 0x1fb, 0x1fc, 0x1fd, 0x1fe, 0x1ff,
   0x200, 0x201, 0x202, 0x203, 0x204, 0x205, 0x206, 0x207, 0x208, 0x209, 0x20a, 0x20b, 0x20c,
   0x20d, 0x20e, 0x20f, 0x210, 0x211, 0x212, 0x213, 0x214, 0x215, 0x216, 0x217, 0x218, 0x219,
   0x21a, 0x21b, 0x21c, 0x21d, 0x21e, 0x21f, 0x220, 0x221, 0x222, 0x223, 0x224, 0x225, 0x226,
   0x227, 0x228, 0x229, 0x22a, 0x22b, 0x22c, 0x22d, 0x22e, 0x22f, 0x230, 0x231, 0x232, 0x233,
   0x23a, 0x23c, 0x23d, 0x23f, 0x241, 0x242, 0x243, 0x247, 0x248, 0x249, 0x24a, 0x24b, 0x24c,
   0x24d, 0x24e, 0x24f, 0x294, 0x295, 0x2b9, 0x2c0, 0x2c2, 0x2e0, 0x2e5, 0x345, 0x346, 0x371,
   0x372, 0x373, 0x374, 0x377, 0x378, 0x37a, 0x37e, 0x390, 0x391, 0x3ac, 0x3cf, 0x3d0, 0x3d2,
   0x3d5, 0x3d8, 0x3d9, 0x3da, 0x3db, 0x3dc, 0x3dd, 0x3de, 0x3df, 0x3e0, 0x3e1, 0x3e2, 0x3e3,
   0x3e4, 0x3e5, 0x3e6, 0x3e7, 0x3e8, 0x3e9, 0x3ea, 0x3eb, 0x3ec, 0x3ed, 0x3ee, 0x3ef, 0x3f4,
   0x3f5, 0x3f6, 0x3f8, 0x3f9, 0x3fb, 0x3fd, 0x430, 0x460, 0x461, 0x462, 0x463, 0x464, 0x465,
   0x466, 0x467, 0x468, 0x469, 0x46a, 0x46b, 0x46c, 0x46d, 0x46e, 0x46f, 0x470, 0x471, 0x472,
   0x473, 0x474, 0x475, 0x476, 0x477, 0x478, 0x479, 0x47a, 0x47b, 0x47c, 0x47d, 0x47e, 0x47f,
   0x480, 0x481, 0x482, 0x48b, 0x48c, 0x48d, 0x48e, 0x48f, 0x490, 0x491, 0x492, 0x493, 0x494,
   0x495, 0x496, 0x497, 0x498, 0x499, 0x49a, 0x49b, 0x49c, 0x49d, 0x49e, 0x49f, 0x4a0, 0x4a1,
   0x4a2, 0x4a3, 0x4a4, 0x4a5, 0x4a6, 0x4a7, 0x4a8, 0x4a9, 0x4aa, 0x4ab, 0x4ac, 0x4ad, 0x4ae,
   0x4af, 0x4b0, 0x4b1, 0x4b2, 0x4b3, 0x4b4, 0x4b5, 0x4b6, 0x4b7, 0x4b8, 0x4b9, 0x4ba, 0x4bb,
   0x4bc, 0x4bd, 0x4be, 0x4bf, 0x4c0, 0x4c2, 0x4c3, 0x4c4, 0x4c5, 0x4c6, 0x4c7, 0x4c8, 0x4c9,
   0x4ca, 0x4cb, 0x4cc, 0x4cd, 0x4ce, 0x4d0, 0x4d1, 0x4d2, 0x4d3, 0x4d4, 0x4d5, 0x4d6, 0x4d7,
   0x4d8, 0x4d9, 0x4da, 0x4db, 0x4dc, 0x4dd, 0x4de, 0x4df, 0x4e0, 0x4e1, 0x4e2, 0x4e3, 0x4e4,
   0x4e5, 0x4e6, 0x4e7, 0x4e8, 0x4e9, 0x4ea, 0x4eb, 0x4ec, 0x4ed, 0x4ee, 0x4ef, 0x4f0, 0x4f1,
   0x4f2, 0x4f3, 0x4f4, 0x4f5, 0x4f6, 0x4f7, 0x4f8, 0x4f9, 0x4fa, 0x4fb, 0x4fc, 0x4fd, 0x4fe,
   0x4ff, 0x500, 0x501, 0x502, 0x503, 0x504, 0x505, 0x506, 0x507, 0x508, 0x509, 0x50a, 0x50b,
   0x50c, 0x50d, 0x50e, 0x50f, 0x510, 0x511, 0x512, 0x513, 0x514, 0x515, 0x516, 0x517, 0x518,
   0x519, 0x51a, 0x51b, 0x51c, 0x51d, 0x51e, 0x51f, 0x520, 0x521, 0x522, 0x523, 0x524, 0x525,
   0x526, 0x527, 0x528, 0x529, 0x52a, 0x52b, 0x52c, 0x52d, 0x52e, 0x52f, 0x530, 0x560, 0x589,
   0x10d0, 0x10fb, 0x10fd, 0x1100, 0x13f8, 0x13fe, 0x1c80, 0x1c89, 0x1d00, 0x1dc0, 0x1e01, 0x1e02,
   0x1e03, 0x1e04, 0x1e05, 0x1e06, 0x1e07, 0x1e08, 0x1e09, 0x1e0a, 0x1e0b, 0x1e0c, 0x1e0d, 0x1e0e,
   0x1e0f, 0x1e10, 0x1e11, 0x1e12, 0x1e13, 0x1e14, 0x1e15, 0x1e16, 0x1e17, 0x1e18, 0x1e19, 0x1e1a,
   0x1e1b, 0x1e1c, 0x1e1d, 0x1e1e, 0x1e1f, 0x1e20, 0x1e21, 0x1e22, 0x1e23, 0x1e24, 0x1e25, 0x1e26,
   0x1e27, 0x1e28, 0x1e29, 0x1e2a, 0x1e2b, 0x1e2c, 0x1e2d, 0x1e2e, 0x1e2f, 0x1e30, 0x1e31, 0x1e32,
   0x1e33, 0x1e34, 0x1e35, 0x1e36, 0x1e37, 0x1e38, 0x1e39, 0x1e3a, 0x1e3b, 0x1e3c, 0x1e3d, 0x1e3e,
   0x1e3f, 0x1e40, 0x1e41, 0x1e42, 0x1e43, 0x1e44, 0x1e45, 0x1e46, 0x1e47, 0x1e48, 0x1e49, 0x1e4a,
   0x1e4b, 0x1e4c, 0x1e4d, 0x1e4e, 0x1e4f, 0x1e50, 0x1e51, 0x1e52, 0x1e53, 0x1e54, 0x1e55, 0x1e56,
   0x1e57, 0x1e58, 0x1e59, 0x1e5a, 0x1e5b, 0x1e5c, 0x1e5d, 0x1e5e, 0x1e5f, 0x1e60, 0x1e61, 0x1e62,
   0x1e63, 0x1e64, 0x1e65, 0x1e66, 0x1e67, 0x1e68, 0x1e69, 0x1e6a, 0x1e6b, 0x1e6c, 0x1e6d, 0x1e6e,
   0x1e6f, 0x1e70, 0x1e71, 0x1e72, 0x1e73, 0x1e74, 0x1e75, 0x1e76, 0x1e77, 0x1e78, 0x1e79, 0x1e7a,
   0x1e7b, 0x1e7c, 0x1e7d, 0x1e7e, 0x1e7f, 0x1e80, 0x1e81, 0x1e82, 0x1e83, 0x1e84, 0x1e85, 0x1e86,
   0x1e87, 0x1e88, 0x1e89, 0x1e8a, 0x1e8b, 0x1e8c, 0x1e8d, 0x1e8e, 0x1e8f, 0x1e90, 0x1e91, 0x1e92,
   0x1e93, 0x1e94, 0x1e95, 0x1e9e, 0x1e9f, 0x1ea0, 0x1ea1, 0x1ea2, 0x1ea3, 0x1ea4, 0x1ea5, 0x1ea6,
   0x1ea7, 0x1ea8, 0x1ea9, 0x1eaa, 0x1eab, 0x1eac, 0x1ead, 0x1eae, 0x1eaf, 0x1eb0, 0x1eb1, 0x1eb2,
   0x1eb3, 0x1eb4, 0x1eb5, 0x1eb6, 0x1eb7, 0x1eb8, 0x1eb9, 0x1eba, 0x1ebb, 0x1ebc, 0x1ebd, 0x1ebe,
   0x1ebf, 0x1ec0, 0x1ec1, 0x1ec2, 0x1ec3, 0x1ec4, 0x1ec5, 0x1ec6, 0x1ec7, 0x1ec8, 0x1ec9, 0x1eca,
   0x1ecb, 0x1ecc, 0x1ecd, 0x1ece, 0x1ecf, 0x1ed0, 0x1ed1, 0x1ed2, 0x1ed3, 0x1ed4, 0x1ed5, 0x1ed6,
   0x1ed7, 0x1ed8, 0x1ed9, 0x1eda, 0x1edb, 0x1edc, 0x1edd, 0x1ede, 0x1edf, 0x1ee0, 0x1ee1, 0x1ee2,
   0x1ee3, 0x1ee4, 0x1ee5, 0x1ee6, 0x1ee7, 0x1ee8, 0x1ee9, 0x1eea, 0x1eeb, 0x1eec, 0x1eed, 0x1eee,
   0x1eef, 0x1ef0, 0x1ef1, 0x1ef2, 0x1ef3, 0x1ef4, 0x1ef5, 0x1ef6, 0x1ef7, 0x1ef8, 0x1ef9, 0x1efa,
   0x1efb, 0x1efc, 0x1efd, 0x1efe, 0x1eff, 0x1f08, 0x1f10, 0x1f16, 0x1f20, 0x1f28, 0x1f30, 0x1f38,
   0x1f40, 0x1f46, 0x1f50, 0x1f58, 0x1f60, 0x1f68, 0x1f70, 0x1f7e, 0x1f80, 0x1f88, 0x1f90, 0x1f98,
   0x1fa0, 0x1fa8, 0x1fb0, 0x1fb5, 0x1fb6, 0x1fb8, 0x1fbe, 0x1fbf, 0x1fc2, 0x1fc5, 0x1fc6, 0x1fc8,
   0x1fd0, 0x1fd4, 0x1fd6, 0x1fd8, 0x1fe0, 0x1fe8, 0x1ff2, 0x1ff5, 0x1ff6, 0x1ff8, 0x2071, 0x2072,
   0x207f, 0x2080, 0x2090, 0x209d, 0x210a, 0x210b, 0x210e, 0x2110, 0x2113, 0x2114, 0x212f, 0x2130,
   0x2134, 0x2135, 0x2139, 0x213a, 0x213c, 0x213e, 0x2146, 0x214a, 0x214e, 0x214f, 0x2170, 0x2180,
   0x2184, 0x2185, 0x24d0, 0x24ea, 0x2c30, 0x2c60, 0x2c61, 0x2c62, 0x2c65, 0x2c67, 0x2c68, 0x2c69,
   0x2c6a, 0x2c6b, 0x2c6c, 0x2c6d, 0x2c71, 0x2c72, 0x2c73, 0x2c75, 0x2c76, 0x2c7e, 0x2c81, 0x2c82,
   0x2c83, 0x2c84, 0x2c85, 0x2c86, 0x2c87, 0x2c88, 0x2c89, 0x2c8a, 0x2c8b, 0x2c8c, 0x2c8d, 0x2c8e,
   0x2c8f, 0x2c90, 0x2c91, 0x2c92, 0x2c93, 0x2c94, 0x2c95, 0x2c96, 0x2c97, 0x2c98, 0x2c99, 0x2c9a,
   0x2c9b, 0x2c9c, 0x2c9d, 0x2c9e, 0x2c9f, 0x2ca0, 0x2ca1, 0x2ca2, 0x2ca3, 0x2ca4, 0x2ca5, 0x2ca6,
   0x2ca7, 0x2ca8, 0x2ca9, 0x2caa, 0x2cab, 0x2cac, 0x2cad, 0x2cae, 0x2caf, 0x2cb0, 0x2cb1, 0x2cb2,
   0x2cb3, 0x2cb4, 0x2cb5, 0x2cb6, 0x2cb7, 0x2cb8, 0x2cb9, 0x2cba, 0x2cbb, 0x2cbc, 0x2cbd, 0x2cbe,
   0x2cbf, 0x2cc0, 0x2cc1, 0x2cc2, 0x2cc3, 0x2cc4, 0x2cc5, 0x2cc6, 0x2cc7, 0x2cc8, 0x2cc9, 0x2cca,
   0x2ccb, 0x2ccc, 0x2ccd, 0x2cce, 0x2ccf, 0x2cd0, 0x2cd1, 0x2cd2, 0x2cd3, 0x2cd4, 0x2cd5, 0x2cd6,
   0x2cd7, 0x2cd8, 0x2cd9, 0x2cda, 0x2cdb, 0x2cdc, 0x2cdd, 0x2cde, 0x2cdf, 0x2ce0, 0x2ce1, 0x2ce2,
   0x2ce3, 0x2ce5, 0x2cec, 0x2ced, 0x2cee, 0x2cef, 0x2cf3, 0x2cf4, 0x2d00, 0x2d26, 0x2d27, 0x2d28,
   0x2d2d, 0x2d2e, 0xa641, 0xa642, 0xa643, 0xa644, 0xa645, 0xa646, 0xa647, 0xa648, 0xa649, 0xa64a,
   0xa64b, 0xa64c, 0xa64d, 0xa64e, 0xa64f, 0xa650, 0xa651, 0xa652, 0xa653, 0xa654, 0xa655, 0xa656,
   0xa657, 0xa658, 0xa659, 0xa65a, 0xa65b, 0xa65c, 0xa65d, 0xa65e, 0xa65f, 0xa660, 0xa661, 0xa662,
   0xa663, 0xa664, 0xa665, 0xa666, 0xa667, 0xa668, 0xa669, 0xa66a, 0xa66b, 0xa66c, 0xa66d, 0xa66e,
   0xa681, 0xa682, 0xa683, 0xa684, 0xa685, 0xa686, 0xa687, 0xa688, 0xa689, 0xa68a, 0xa68b, 0xa68c,
   0xa68d, 0xa68e, 0xa68f, 0xa690, 0xa691, 0xa692, 0xa693, 0xa694, 0xa695, 0xa696, 0xa697, 0xa698,
   0xa699, 0xa69a, 0xa69b, 0xa69e, 0xa723, 0xa724, 0xa725, 0xa726, 0xa727, 0xa728, 0xa729, 0xa72a,
   0xa72b, 0xa72c, 0xa72d, 0xa72e, 0xa72f, 0xa732, 0xa733, 0xa734, 0xa735, 0xa736, 0xa737, 0xa738,
   0xa739, 0xa73a, 0xa73b, 0xa73c, 0xa73d, 0xa73e, 0xa73f, 0xa740, 0xa741, 0xa742, 0xa743, 0xa744,
   0xa745, 0xa746, 0xa747, 0xa748, 0xa749, 0xa74a, 0xa74b, 0xa74c, 0xa74d, 0xa74e, 0xa74f, 0xa750,
   0xa751, 0xa752, 0xa753, 0xa754, 0xa755, 0xa756, 0xa757, 0xa758, 0xa759, 0xa75a, 0xa75b, 0xa75c,
   0xa75d, 0xa75e, 0xa75f, 0xa760, 0xa761, 0xa762, 0xa763, 0xa764, 0xa765, 0xa766, 0xa767, 0xa768,
   0xa769, 0xa76a, 0xa76b, 0xa76c, 0xa76d, 0xa76e, 0xa76f, 0xa779, 0xa77a, 0xa77b, 0xa77c, 0xa77d,
   0xa77f, 0xa780, 0xa781, 0xa782, 0xa783, 0xa784, 0xa785, 0xa786, 0xa787, 0xa788, 0xa78c, 0xa78d,
   0xa78e, 0xa78f, 0xa791, 0xa792, 0xa793, 0xa796, 0xa797, 0xa798, 0xa799, 0xa79a, 0xa79b, 0xa79c,
   0xa79d, 0xa79e, 0xa79f, 0xa7a0, 0xa7a1, 0xa7a2, 0xa7a3, 0xa7a4, 0xa7a5, 0xa7a6, 0xa7a7, 0xa7a8,
   0xa7a9, 0xa7aa, 0xa7af, 0xa7b0, 0xa7b5, 0xa7b6, 0xa7b7, 0xa7b8, 0xa7b9, 0xa7ba, 0xa7bb, 0xa7bc,
   0xa7bd, 0xa7be, 0xa7bf, 0xa7c0, 0xa7c1, 0xa7c2, 0xa7c3, 0xa7c4, 0xa7c8, 0xa7c9, 0xa7ca, 0xa7cb,
   0xa7d1, 0xa7d2, 0xa7d3, 0xa7d4, 0xa7d5, 0xa7d6, 0xa7d7, 0xa7d8, 0xa7d9, 0xa7da, 0xa7f6, 0xa7f7,
   0xa7f8, 0xa7fb, 0xab30, 0xab5b, 0xab5c, 0xab69, 0xab70, 0xabc0, 0xfb00, 0xfb07, 0xfb13, 0xfb18,
   0xff41, 0xff5b, 0x10428, 0x10450, 0x104d8, 0x104fc, 0x10597, 0x105a2, 0x105a3, 0x105b2, 0x105b3,
   0x105ba, 0x105bb, 0x105bd, 0x10780, 0x10781, 0x10783, 0x10786, 0x10787, 0x107b1, 0x107b2,
   0x107bb, 0x10cc0, 0x10cf3, 0x118c0, 0x118e0, 0x16e60, 0x16e80, 0x1d41a, 0x1d434, 0x1d44e,
   0x1d455, 0x1d456, 0x1d468, 0x1d482, 0x1d49c, 0x1d4b6, 0x1d4ba, 0x1d4bb, 0x1d4bc, 0x1d4bd,
   0x1d4c4, 0x1d4c5, 0x1d4d0, 0x1d4ea, 0x1d504, 0x1d51e, 0x1d538, 0x1d552, 0x1d56c, 0x1d586,
   0x1d5a0, 0x1d5ba, 0x1d5d4, 0x1d5ee, 0x1d608, 0x1d622, 0x1d63c, 0x1d656, 0x1d670, 0x1d68a,
   0x1d6a6, 0x1d6c2, 0x1d6db, 0x1d6dc, 0x1d6e2, 0x1d6fc, 0x1d715, 0x1d716, 0x1d71c, 0x1d736,
   0x1d74f, 0x1d750, 0x1d756, 0x1d770, 0x1d789, 0x1d78a, 0x1d790, 0x1d7aa, 0x1d7c3, 0x1d7c4,
   0x1d7ca, 0x1d7cb, 0x1d7cc, 0x1df00, 0x1df0a, 0x1df0b, 0x1df1f, 0x1e922, 0x1e944]

def holds (c : Char) : Bool :=
  if c.toNat < 128 then c.isLower else Boundaries.holds changes c.toNat

end Lowercase

end ParamThreading
